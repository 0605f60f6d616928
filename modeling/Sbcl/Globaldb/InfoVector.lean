import Sbcl.Lib.Limbs
import Sbcl.Object

/-!
# Packed info (compiler/info-vector.lisp)

* `PackedInfo` : descriptors from the first element on, data from the last one down;
* `packifyInfos`, `unpackifyInfos` : between this form and plists in a vector;
* `packedInfoValueIndex`, `packedInfoInsert`, `packedInfoRemove` : the operations.

Vectors are functions with their length beside them. An index that the source increments before each
use is one more here, and an index that it decrements before each use is the same. A function whose
assertion can fail returns an option, which is empty there.
-/

namespace Sbcl.InfoVector

open Function Limbs

variable {ω : Type}

/-- An object: a small number (a descriptor, a length, an info number), or any other. -/
inductive Obj (ω : Type) where
  | fixnum (n : ℕ)
  | other (x : ω)

/-- `(the index x)`. -/
def Obj.index : Obj ω → ℕ
  | fixnum n => n
  | other _ => 0

abbrev SimpleVector (ω : Type) := ℕ → Obj ω

/-- The auxiliary key of a name, where `none` is `+no-auxiliary-key+`. -/
abbrev AuxKey (ω : Type) := Option ω

def auxKeyObject : AuxKey ω → Obj ω
  | none => .fixnum 0
  | some key => .other key

structure PackedInfo (ω : Type) where
  /-- `packed-info-len`. -/
  len : ℕ
  /-- `%info-ref`. -/
  ref : SimpleVector ω

def infoNumberBits : ℕ := 6

def infoNumMask : ℕ := 2 ^ infoNumberBits - 1

def infosPerWord : ℕ := (nPositiveFixnumBits + 1) / infoNumberBits

def nilPackedInfos : PackedInfo ω := ⟨1, fun _ => .fixnum 0⟩

def fdefnInfoNum : ℕ := infoNumMask

def packedInfoField (packedInfo : PackedInfo ω) (descIndex fieldIndex : ℕ) : ℕ :=
  (packedInfo.ref descIndex).index >>> (infoNumberBits * fieldIndex) &&& infoNumMask

/-- The loop of `compute-packified-info-size`. -/
def computePackifiedInfoSizeLoop (vector : SimpleVector ω) (last index nFields : ℕ) : ℕ :=
  let length := (vector index).index
  let nFields := nFields + (1 + length / 2)
  if index + (1 + length) ≥ last then (nFields + infosPerWord - 1) / infosPerWord + (nFields - 1)
  else computePackifiedInfoSizeLoop vector last (index + (1 + length)) nFields
termination_by last - index

def computePackifiedInfoSize (vector : SimpleVector ω) (last : ℕ) : ℕ :=
  computePackifiedInfoSizeLoop vector last 0 0

/-- The variables of `packify-infos`. -/
structure Packer (ω : Type) where
  output : SimpleVector ω
  j : ℕ
  k : ℕ
  fieldShift : ℕ
  word : ℕ

def putField (s : Packer ω) (val : ℕ) : Packer ω :=
  let word := val <<< s.fieldShift ||| s.word
  if s.fieldShift < (infosPerWord - 1) * infoNumberBits then
    { s with word := word, fieldShift := s.fieldShift + infoNumberBits }
  else { s with output := update s.output s.j (.fixnum word), j := s.j + 1, fieldShift := 0, word := 0 }

def putDatum (s : Packer ω) (datum : Obj ω) : Packer ω :=
  { s with output := update s.output (s.k - 1) datum, k := s.k - 1 }

def packifyLoop (input : SimpleVector ω) (last i : ℕ) (s : Packer ω) : Packer ω :=
  let count := (input i).index / 2
  let s := dotimes count (putField s count) fun iter s =>
    putDatum (putField s (input (i + 1 + 2 * iter)).index) (input (i + 1 + 2 * iter + 1))
  let i := i + 1 + 2 * count
  if i ≥ last then s else packifyLoop input last (i + 1) (putDatum s (input i))
termination_by last - i

def packifyInfos (input : SimpleVector ω) (last : ℕ) : Option (PackedInfo ω) :=
  let len := computePackifiedInfoSize input last
  let s := packifyLoop input last 0 ⟨fun _ => .fixnum 0, 0, len, 0, 0⟩
  let s := if s.fieldShift = 0 then s
    else { s with output := update s.output s.j (.fixnum s.word), j := s.j + 1 }
  if s.j = s.k then some ⟨len, s.output⟩ else none

/-- The variables of `with-packed-info-iterator`. -/
structure Iterator where
  descriptorIndex : ℕ
  count : ℕ
  word : ℕ

def nextField (input : PackedInfo ω) (it : Iterator) : ℕ × Iterator :=
  let it := if it.count = 0 then
      ⟨it.descriptorIndex + 1, infosPerWord, (input.ref it.descriptorIndex).index⟩
    else it
  (it.word &&& infoNumMask, { it with word := it.word >>> infoNumberBits, count := it.count - 1 })

/-- The loop of `do-packed-info-aux-key`, for its number of fields. -/
def totalNFieldsLoop (info : PackedInfo ω)
    (dataIndex descriptorIdx fieldIdx totalNFields : ℕ) : ℕ :=
  let nInfos := packedInfoField info descriptorIdx fieldIdx
  let totalNFields := totalNFields + (1 + nInfos)
  let descriptorIdx := totalNFields / infosPerWord
  let fieldIdx := totalNFields % infosPerWord
  if descriptorIdx + (1 + nInfos) < dataIndex then
    totalNFieldsLoop info (dataIndex - (1 + nInfos)) descriptorIdx fieldIdx totalNFields
  else totalNFields
termination_by dataIndex
decreasing_by
  have h : descriptorIdx + (1 + nInfos) < dataIndex := ‹_›
  exact Nat.sub_lt ((Nat.zero_le _).trans_lt h) (by omega)

def computeUnpackifiedInfoSize (packedInfo : PackedInfo ω) : ℕ :=
  2 * totalNFieldsLoop packedInfo packedInfo.len 0 0 0 - 1

def unpackifyLoop (input : PackedInfo ω) (i j : ℕ) (it : Iterator) (output : SimpleVector ω) :
    SimpleVector ω :=
  let (nInfos, it) := nextField input it
  let output := update output j (.fixnum (1 + 2 * nInfos))
  let (it, output) := dotimes nInfos (it, output) fun iter (it, output) =>
    let (typeNum, it) := nextField input it
    (it, update (update output (j + 1 + 2 * iter) (.fixnum typeNum)) (j + 1 + 2 * iter + 1)
      (input.ref (i - 1 - iter)))
  let j := j + 1 + 2 * nInfos
  -- The index of the last descriptor is below that of the next datum.
  if it.descriptorIndex + nInfos < i then
    unpackifyLoop input (i - nInfos - 1) (j + 1) it (update output j (input.ref (i - nInfos - 1)))
  else output
termination_by i

def unpackifyInfos (input : PackedInfo ω) (output : SimpleVector ω) : SimpleVector ω :=
  unpackifyLoop input input.len 0 ⟨0, 0, 0⟩ output

/-! ## Auxiliary keys -/

section Keys
variable [DecidableEq ω]

instance : DecidableEq (Obj ω) := fun a b =>
  match a, b with
  | .fixnum m, .fixnum n => decidable_of_iff (m = n) (by simp)
  | .other x, .other y => decidable_of_iff (x = y) (by simp)
  | .fixnum _, .other _ => isFalse nofun
  | .other _, .fixnum _ => isFalse nofun

def findAuxKeyUnpackedLoop (key : ω) (vector : SimpleVector ω) (last index : ℕ) : Option ℕ :=
  let index' := index + (1 + (vector index).index)
  if index' ≥ last then none
  else if vector (index' - 1) = .other key then some index'
  else findAuxKeyUnpackedLoop key vector last index'
termination_by last - index

def infoFindAuxKeyUnpacked (key : AuxKey ω) (vector : SimpleVector ω) (last : ℕ) : Option ℕ :=
  match key with
  | none => some 0
  | some key => findAuxKeyUnpackedLoop key vector last 0

/-- The indices of `info-find-aux-key/packed`. -/
structure Cursor where
  dataIdx : ℕ
  descriptorIdx : ℕ
  fieldIdx : ℕ

/-- The loop of `skip` that carries from the field index into the descriptor index. -/
def carryField (descriptorIdx fieldIdx : ℕ) : ℕ × ℕ :=
  if fieldIdx < 2 * infosPerWord then (descriptorIdx + 1, fieldIdx - infosPerWord)
  else carryField (descriptorIdx + 1) (fieldIdx - infosPerWord)
termination_by fieldIdx
decreasing_by
  have hpos : 0 < infosPerWord := by decide
  omega

/-- `skip`: nothing where it fails. -/
def skip (c : Cursor) (nInfos : ℕ) : Option Cursor :=
  let nFields := 1 + nInfos
  if c.dataIdx ≤ c.descriptorIdx + nFields then none
  else
    let dataIdx := c.dataIdx - nFields
    let fieldIdx := c.fieldIdx + nFields
    if fieldIdx < infosPerWord then some ⟨dataIdx, c.descriptorIdx, fieldIdx⟩
    else
      let (descriptorIdx, fieldIdx) := carryField c.descriptorIdx fieldIdx
      if descriptorIdx < dataIdx then some ⟨dataIdx, descriptorIdx, fieldIdx⟩ else none

theorem skip_lt {c c' : Cursor} {nInfos : ℕ} (h : skip c nInfos = some c') :
    c'.dataIdx < c.dataIdx := by
  unfold skip at h
  grind

def findAuxKeyPackedLoop (packedInfo : PackedInfo ω) (symbol : ω) (c : Cursor) : Option Cursor :=
  match _h : skip c (packedInfoField packedInfo c.descriptorIdx c.fieldIdx) with
  | none => none
  | some c' => if packedInfo.ref c'.dataIdx = .other symbol then some c'
    else findAuxKeyPackedLoop packedInfo symbol c'
termination_by c.dataIdx
decreasing_by exact skip_lt ‹_›

def infoFindAuxKeyPacked (setf : ω) (packedInfo : PackedInfo ω) (symbol : ω) : Option Cursor :=
  match skip ⟨packedInfo.len, 0, 0⟩ (packedInfoField packedInfo 0 0) with
  | none => none
  | some c =>
    if packedInfo.ref c.dataIdx = .other symbol then some c
    else if symbol = setf then none
    else findAuxKeyPackedLoop packedInfo symbol c

/-- `(and (not (eql aux-key +no-auxiliary-key+)) (not (info-find-aux-key/packed input aux-key)))`.
-/
def auxKeyAbsent (setf : ω) (input : PackedInfo ω) : AuxKey ω → Bool
  | none => false
  | some key => (infoFindAuxKeyPacked setf input key).isNone

/-- The loop over the fields of a descriptor. -/
def scanDescriptor (typeNum : ℕ) : ℕ → ℕ → ℕ → Option ℕ
  | 0, _, _ => none
  | swath + 1, j, descriptor =>
    if typeNum = descriptor &&& infoNumMask then some j
    else scanDescriptor typeNum swath (j + 1) (descriptor >>> infoNumberBits)

def valueIndexLoop (packedInfo : PackedInfo ω)
    (typeNum dataIdx descriptorIdx nInfos swath descriptor : ℕ) : Option (Option ℕ) :=
  match scanDescriptor typeNum swath 0 descriptor with
  | some j => some (some (dataIdx - j - 1))
  | none =>
    if nInfos - swath = 0 then some none
    else if descriptorIdx + 1 < dataIdx - swath then
      valueIndexLoop packedInfo typeNum (dataIdx - swath) (descriptorIdx + 1) (nInfos - swath)
        (min (nInfos - swath) infosPerWord) (packedInfo.ref (descriptorIdx + 1)).index
    else none
termination_by (nInfos, if swath = 0 then 1 else 0)
decreasing_by
  have hpos : 0 < infosPerWord := by decide
  rcases Nat.eq_zero_or_pos swath with rfl | hs
  · rw [Nat.sub_zero] at *
    exact Prod.Lex.right _ (by rw [if_pos rfl, if_neg (by omega)]; exact one_pos)
  · exact Prod.Lex.left _ _ (by omega)

def packedInfoValueIndex (setf : ω) (packedInfo : PackedInfo ω) (auxKey : AuxKey ω) (typeNum : ℕ) :
    Option (Option ℕ) :=
  let cursor : Option Cursor := match auxKey with
    | none => some ⟨packedInfo.len, 0, 0⟩
    | some key => infoFindAuxKeyPacked setf packedInfo key
  match cursor with
  | none => some none
  | some c =>
    let descriptor := (packedInfo.ref c.descriptorIdx).index >>> (infoNumberBits * c.fieldIdx)
    let nInfos := descriptor &&& infoNumMask
    valueIndexLoop packedInfo typeNum c.dataIdx c.descriptorIdx nInfos
      (min (infosPerWord - c.fieldIdx - 1) nInfos) (descriptor >>> infoNumberBits)

/-- `(replace new new :start1 (+ point n) :start2 point)`. -/
def slideRight (new : SimpleVector ω) (point n : ℕ) : SimpleVector ω :=
  fun i => if point + n ≤ i then new (i - n) else new i

def insertAt (oldSize nExtraElts : ℕ) (new : SimpleVector ω) (point : ℕ) (v0 v1 : Obj ω) :
    SimpleVector ω :=
  let new := if point = oldSize then new else slideRight new point nExtraElts
  update (update new point v0) (point + 1) v1

/-- The scan for the insertion point that preserves ascending order, over `n` entries. -/
def ascendingPoint (new : SimpleVector ω) (infoNumber : ℕ) : ℕ → ℕ → Option ℕ
  | 0, _ => none
  | n + 1, index =>
    if (new index).index ≠ fdefnInfoNum ∧ infoNumber < (new index).index then some index
    else ascendingPoint new infoNumber n (index + 2)

def insertionPoint (new : SimpleVector ω) (auxKey : AuxKey ω) (infoNumber dataStart : ℕ) : ℕ :=
  let dataLength := (new dataStart).index
  if infoNumber = fdefnInfoNum then dataStart + 1
  else
    match if auxKey = none then ascendingPoint new infoNumber (dataLength / 2)
      (dataStart + 1) else none with
    | some index => index
    | none => dataStart + dataLength

def packedInfoInsert (setf : ω) (input : PackedInfo ω) (auxKey : AuxKey ω) (infoNumber : ℕ)
    (value : Obj ω) : Option (PackedInfo ω) :=
  let nExtraElts := if auxKeyAbsent setf input auxKey then 4 else 2
  let oldSize := computeUnpackifiedInfoSize input
  let newSize := oldSize + nExtraElts
  let new := unpackifyInfos input fun _ => .fixnum 0
  if nExtraElts = 4 then
    let point := if auxKey = some setf then (new 0).index else oldSize
    let new := insertAt oldSize nExtraElts new point (auxKeyObject auxKey) (.fixnum 3)
    packifyInfos (update (update new (point + 2) (.fixnum infoNumber)) (point + 3) value) newSize
  else do
    let dataStart ← infoFindAuxKeyUnpacked auxKey new oldSize
    let new := insertAt oldSize nExtraElts new (insertionPoint new auxKey infoNumber dataStart) (.fixnum infoNumber) value
    let length := (new dataStart).index + 2
    if length / 2 < 2 ^ infoNumberBits then packifyInfos (update new dataStart (.fixnum length)) newSize
    else none

/-- `(replace new new :start1 start1 :start2 start2)` in a vector of `size` elements. -/
def slideLeft (new : SimpleVector ω) (size start1 start2 : ℕ) : SimpleVector ω :=
  fun i => if start1 ≤ i ∧ i + (start2 - start1) < size then new (i + (start2 - start1)) else new i

/-- The probe for an info number, over `n` entries. -/
def probe (new : SimpleVector ω) (typeNum : ℕ) : ℕ → ℕ → Option ℕ
  | 0, _ => none
  | n + 1, index => if (new index).index = typeNum then some index
    else probe new typeNum n (index + 2)

/-- The loop over the info numbers to remove: the vector and its new end. -/
def removeLoop (size dataStart : ℕ) : List ℕ → SimpleVector ω → ℕ → SimpleVector ω × ℕ
  | [], new, last => (new, last)
  | typeNum :: typeNums, new, last =>
    match probe new typeNum ((new dataStart).index / 2) (dataStart + 1) with
    | none => removeLoop size dataStart typeNums new last
    | some i =>
      if dataStart = 0 ∨ (new dataStart).index > 3 then
        let new := slideLeft new size i (i + 2)
        let length := (new dataStart).index - 2
        let new := update new dataStart (.fixnum length)
        if length = 1 then (new, last - 2) else removeLoop size dataStart typeNums new (last - 2)
      else (slideLeft new size (i - 2) (i + 2), last - 4)

/-- Nothing is returned for NIL. -/
def packedInfoRemove (setf : ω) (input : PackedInfo ω) (key2 : AuxKey ω) (typeNums : List ℕ) :
    Option (Option (PackedInfo ω)) :=
  if input.len = (nilPackedInfos (ω := ω)).len ∨ auxKeyAbsent setf input key2 then some none
  else do
    let size := computeUnpackifiedInfoSize input
    let new := unpackifyInfos input fun _ => .fixnum 0
    let dataStart ← infoFindAuxKeyUnpacked key2 new size
    let (new, last) := removeLoop size dataStart typeNums new size
    if size - last = 0 then some none
    else if last = 1 then some (some nilPackedInfos)
    else some <$> packifyInfos new last

/-- A copy with another value at an index. -/
def copyWithValue (packedInfo : PackedInfo ω) (index : ℕ) (newValue : Obj ω) : PackedInfo ω :=
  { packedInfo with ref := update packedInfo.ref index newValue }

end Keys

end Sbcl.InfoVector
