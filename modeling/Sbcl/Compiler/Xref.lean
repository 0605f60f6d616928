import Sbcl.Integer
import Sbcl.Debug.VarInteger

/-!
# Cross-references (compiler/xref.lisp, code/repack-xref.lisp)

* `CommonNames` : the tables of the most common names;
* `packXrefData` : a table of cross-references as octets and names;
* `mapPackedXrefData` : the calls of the function, in their order;
* `repackXref` : the new tables of names, and all data packed again with them.

Nothing is returned where an error is signalled. The data of a function without cross-references is
`none`, for `nil`.
-/

namespace Sbcl.Xref

open ByteSpec VarInteger

inductive XrefKind where
  | binds
  | calls
  | sets
  | references
  | macroexpands
  deriving DecidableEq

def xrefKinds : List XrefKind := [.binds, .calls, .sets, .references, .macroexpands]

/-- `**most-common-xref-names-by-index**` and `**most-common-xref-names-by-name**`. -/
structure CommonNames (Name : Type) where
  byIndex : List Name
  byName : Name → Option ℕ
  consistent : ∀ name i, byName name = some i → byIndex[i]? = some name

/-- The octets, and the names after them. -/
structure Packed (Name : Type) where
  octets : List Octet
  names : List Name

section
variable {Name : Type} [DecidableEq Name] (tables : CommonNames Name)

/-! ## Packing -/

def encodeKindAndCount (kind count : ℕ) : ℕ := kind ||| (count - 1) <<< 3

def decodeKindAndCount (integer : ℕ) : ℕ × ℕ := (ByteSpec.ldb 3 0 integer, 1 + integer >>> 3)

def encodeIndexAndNumber (nameBits numberBits index number : ℕ) : ℕ :=
  dpb number numberBits nameBits index

def decodeIndexAndNumber (nameBits numberBits integer : ℕ) : ℕ × ℕ :=
  (ByteSpec.ldb nameBits 0 integer, ByteSpec.ldb numberBits nameBits integer)

/-- `name->index`: the index, whether it was there, and the names after it. -/
def nameToIndex (vector : List Name) (name : Name) : ℕ × Bool × List Name :=
  let commonCount := tables.byIndex.length
  match tables.byName name with
  | some index => (index, true, vector)
  | none =>
    if name ∈ vector then (vector.idxOf name + commonCount, true, vector)
    else (vector.length + commonCount, false, vector ++ [name])

def pushnew (number : ℕ) (numbers : List ℕ) : List ℕ :=
  if number ∈ numbers then numbers else number :: numbers

/-- A number for the entry of an index, where there is one, and how many numbers the entry then has.
-/
def pushNumber (index number : ℕ) : List (ℕ × List ℕ) → Option (List (ℕ × List ℕ) × ℕ)
  | [] => none
  | (i, numbers) :: cells =>
    if i = index then some ((i, pushnew number numbers) :: cells, (pushnew number numbers).length)
    else (pushNumber index number cells).map fun (cells, count) => ((i, numbers) :: cells, count)

/-- What is collected over all kinds. -/
structure Collected (Name : Type) where
  names : List Name
  maxIndex : ℕ
  maxNumber : ℕ

/-- A record, for the entries of its kind. -/
def collectRecord (state : Collected Name × List (ℕ × List ℕ)) (record : Name × ℕ) :
    Collected Name × List (ℕ × List ℕ) :=
  let (collected, kindEntries) := state
  let (name, number) := record
  let (index, foundp, names) := nameToIndex tables collected.names name
  let (kindEntries, count) :=
    ((if foundp then pushNumber index number kindEntries else none).getD
      ((index, pushnew number []) :: kindEntries, (pushnew number []).length))
  (⟨names, max collected.maxIndex index, max collected.maxNumber count⟩, kindEntries)

/-- The entries of all kinds, the last kind first. -/
def collectEntries : List (XrefKind × List (Name × ℕ)) →
    Collected Name × List (ℕ × List (ℕ × List ℕ)) → Collected Name × List (ℕ × List (ℕ × List ℕ))
  | [], state => state
  | (kind, records) :: xrefData, (collected, entries) =>
    if records = [] then collectEntries xrefData (collected, entries)
    else
      let (collected, kindEntries) := records.foldl (collectRecord tables) (collected, [])
      collectEntries xrefData (collected, (xrefKinds.idxOf kind, kindEntries) :: entries)

/-- Each number as what it is above the one before. -/
def differences (prev : ℕ) : List ℕ → List ℕ
  | [] => []
  | number :: numbers => (number - prev) :: differences number numbers

/-- The integers of an entry. -/
def entryIntegers (nameBits numberBits : ℕ) (entry : ℕ × List ℕ) : List ℕ :=
  encodeIndexAndNumber nameBits numberBits entry.1 entry.2.length ::
    differences 0 (entry.2.mergeSort fun m n => decide (m ≤ n))

/-- The integers of a kind. -/
def kindIntegers (nameBits numberBits : ℕ) (kind : ℕ × List (ℕ × List ℕ)) : List ℕ :=
  encodeKindAndCount kind.1 kind.2.length :: kind.2.flatMap (entryIntegers nameBits numberBits)

def writeVarIntegers : List ℕ → Option (List Octet)
  | [] => some []
  | n :: ns => do
      let octets ← writeVarInteger n
      let rest ← writeVarIntegers ns
      some (octets ++ rest)

def packXrefData (xrefData : List (XrefKind × List (Name × ℕ))) : Option (Option (Packed Name)) :=
  if xrefData = [] then some none
  else
    let (collected, entries) := collectEntries tables xrefData (⟨[], 0, 0⟩, [])
    let nameBits := integerLength collected.maxIndex
    let numberBits := integerLength collected.maxNumber
    (writeVarIntegers (nameBits :: numberBits ::
      entries.flatMap (kindIntegers nameBits numberBits))).map fun octets =>
      some ⟨octets, collected.names⟩

/-- `index->name`. -/
def indexToName (vector : List Name) (index : ℕ) : Option Name :=
  let commonCount := tables.byIndex.length
  if index < commonCount then tables.byIndex[index]? else vector[index - commonCount]?

/-- The loop over the form numbers of an entry. -/
def mapNumbers (kind : XrefKind) (name : Name) : ℕ → List Octet →
    Option (List (XrefKind × Name × ℕ) × List Octet)
  | 0, packed => some ([], packed)
  | count + 1, packed => do
      let (formNumber, packed) ← readVarInteger packed
      let (calls, packed) ← mapNumbers kind name count packed
      some ((kind, name, formNumber) :: calls, packed)

/-- The loop over the entries of a kind. -/
def mapRecords (vector : List Name) (nameBits numberBits : ℕ) (kind : XrefKind) :
    ℕ → List Octet → Option (List (XrefKind × Name × ℕ) × List Octet)
  | 0, packed => some ([], packed)
  | count + 1, packed => do
      let (integer, packed) ← readVarInteger packed
      let (index, numberCount) := decodeIndexAndNumber nameBits numberBits integer
      let name ← indexToName tables vector index
      let (calls, packed) ← mapNumbers kind name numberCount packed
      let (calls', packed) ← mapRecords vector nameBits numberBits kind count packed
      some (calls ++ calls', packed)

/-- The loop over the kinds, of which there are no more than octets. -/
def mapKinds (vector : List Name) (nameBits numberBits : ℕ) : ℕ → List Octet →
    Option (List (XrefKind × Name × ℕ))
  | _, [] => some []
  | 0, _ :: _ => none
  | limit + 1, packed => do
      let (integer, packed) ← readVarInteger packed
      let (kindNumber, recordCount) := decodeKindAndCount integer
      let kind ← xrefKinds[kindNumber]?
      let (calls, packed) ← mapRecords tables vector nameBits numberBits kind recordCount packed
      let calls' ← mapKinds vector nameBits numberBits limit packed
      some (calls ++ calls')

def mapPackedXrefData (xrefData : Packed Name) : Option (List (XrefKind × Name × ℕ)) := do
  let (nameBits, packed) ← readVarInteger xrefData.octets
  let (numberBits, packed) ← readVarInteger packed
  mapKinds tables xrefData.names nameBits numberBits packed.length packed

/-- The calls for the data of a function, of which it may have none. -/
def xrefCalls : Option (Packed Name) → Option (List (XrefKind × Name × ℕ))
  | none => some []
  | some xrefData => mapPackedXrefData tables xrefData

end

/-! ## Packing again -/

section
variable {Name : Type} [DecidableEq Name]

/-- `(setf (getf unpacked kind) (nconc (getf unpacked kind) (list record)))`. -/
def appendRecord (kind : XrefKind) (record : Name × ℕ) :
    List (XrefKind × List (Name × ℕ)) → Option (List (XrefKind × List (Name × ℕ)))
  | [] => none
  | (k, records) :: plist =>
    if k = kind then some ((k, records ++ [record]) :: plist)
    else (appendRecord kind record plist).map fun plist => (k, records) :: plist

/-- The table that the calls are stored in. -/
def unpackCalls (calls : List (XrefKind × Name × ℕ)) : List (XrefKind × List (Name × ℕ)) :=
  calls.foldl (fun unpacked (kind, name, number) =>
    (appendRecord kind (name, number) unpacked).getD ((kind, [(name, number)]) :: unpacked)) []

/-- `(incf (cdr cell))` for the name, with a cell for it first where there is none. -/
def countName (counts : List (Name × ℕ)) (name : Name) : List (Name × ℕ) :=
  if name ∈ counts.map Prod.fst then counts.map fun (n, count) =>
    (n, if n = name then count + 1 else count)
  else (name, 1) :: counts

/-- The names of a function, each of them once. -/
def countNames (counts : List (Name × ℕ)) (calls : List (XrefKind × Name × ℕ)) : List (Name × ℕ) :=
  ((calls.map fun call => call.2.1).eraseDups).foldl countName counts

/-- The names that are referenced most. -/
def newNames (compactNameCount : ℕ) (counts : List (Name × ℕ)) : List Name :=
  ((counts.mergeSort fun a b => decide (b.2 ≤ a.2)).map Prod.fst).take compactNameCount

/-- The table by name, after `clrhash`, from the name at `i` on. -/
def setNames : ℕ → List Name → (Name → Option ℕ) → Name → Option ℕ
  | _, [], byName => byName
  | i, name :: names, byName => setNames (i + 1) names (Function.update byName name (some i))

theorem setNames_consistent {all : List Name} {i : ℕ} {names : List Name} {byName : Name → Option ℕ}
    (h : all.drop i = names) (hname : ∀ name j, byName name = some j → all[j]? = some name) :
    ∀ name j, setNames i names byName name = some j → all[j]? = some name := by
  induction names generalizing i byName with
  | nil => exact hname
  | cons n names ih =>
    have hi : all[i]? = some n := by
      have := congrArg (fun l => l[0]?) h
      simpa [List.getElem?_drop] using this
    refine ih ?_ fun name j hj => ?_
    · rw [← List.drop_drop, h]
      rfl
    by_cases hn : name = n
    · subst hn
      rw [Function.update_self, Option.some_inj] at hj
      rw [← hj]
      exact hi
    · rw [Function.update_of_ne hn] at hj
      exact hname name j hj

/-- The tables for some names. -/
def CommonNames.ofNames (names : List Name) : CommonNames Name :=
  ⟨names, setNames 0 names fun _ => none, setNames_consistent rfl fun _ _ h => nomatch h⟩

/-- `repack-xref`, for the data of all functions that have some, where the data of the internals is
kept. There is a break for data without an entry. -/
def repackXref (tables : CommonNames Name) (compactNameCount : ℕ) (data : List (Packed Name)) :
    Option (CommonNames Name × List (Option (Packed Name))) := do
  let unpacked ← data.mapM (mapPackedXrefData tables)
  if [] ∈ unpacked then none
  else do
    let new := CommonNames.ofNames (newNames compactNameCount (unpacked.foldl countNames []))
    let packed ← unpacked.mapM fun calls => packXrefData new (unpackCalls calls)
    some (new, packed)

end

end Sbcl.Xref
