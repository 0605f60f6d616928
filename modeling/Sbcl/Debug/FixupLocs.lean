import Mathlib.Data.List.Sort
import Mathlib.Data.Nat.Size
import Sbcl.Debug.VarInteger

/-!
# Fixup locations (code/debug-var-io.lisp, runtime/var-io.c)

* `packCodeFixupLocs` : up to three lists of locations, each as its differences with a zero between
  two lists, in one integer;
* `unpackCodeFixupLocs` : the three lists of an integer;
* `varintUnpack`, `skipDataStream`, `applyStream` : the reader of the runtime, and the loop of those
  that call it.

Nothing is returned where an assertion fails or a value is not of its declared type.
-/

namespace Sbcl.VarInteger

/-- `read-var-integer` from an index on, with the index that follows. -/
def readVarIntegerAt (source : List Octet) (start : ℕ) : Option (ℕ × ℕ) :=
  (readVarInteger (source.drop start)).map fun (value, rest) => (value, source.length - rest.length)

/-- The loop of `integer-from-octets`. -/
def integerFromOctetsLoop (result shift : ℕ) : List Octet → ℕ
  | [] => result
  | byte :: octets => integerFromOctetsLoop (result ||| byte.val <<< shift) (shift + 8) octets

def integerFromOctets (octets : List Octet) : ℕ := integerFromOctetsLoop 0 0 octets

/-- The loop of `pack`. -/
def packLoop (prev : ℕ) : List ℕ → Option (List Octet)
  | [] => some []
  | x :: list =>
    -- Two fixups at one location would leave a zero, which is the mark of the end.
    if x > prev then do
      let octets ← writeVarInteger (x - prev)
      let rest ← packLoop x list
      some (octets ++ rest)
    else none

def pack (list : List ℕ) : Option (List Octet) :=
  packLoop 0 (list.mergeSort fun x y => decide (x ≤ y))

/-- A list after a delimiter. -/
def packAfter (list : List ℕ) : Option (List Octet) := do
  let delimiter ← writeVarInteger 0
  let octets ← pack list
  some (delimiter ++ octets)

def packWhen (test : Prop) [Decidable test] (list : List ℕ) : Option (List Octet) :=
  if test then packAfter list else some []

def packCodeFixupLocs (list1 list2 list3 : List ℕ) : Option ℕ := do
  let bytes1 ← pack list1
  let bytes2 ← packWhen (list2 ≠ [] ∨ list3 ≠ []) list2
  let bytes3 ← packWhen (list3 ≠ []) list3
  some (integerFromOctets (bytes1 ++ bytes2 ++ bytes3))

/-- The bound of `bytepos`, in bits. -/
def bytePosLimit : ℕ := 2 ^ 20

/-- The bound of a location. -/
def locLimit : ℕ := 2 ^ 29

def mostPositiveWord : ℕ := 2 ^ 64 - 1

/-- The loop of `do-packed-varints`, for the list of the locations and the position that is reached.
-/
def decodeLoop (integer bytepos shift acc prev : ℕ) : Option (List ℕ × ℕ) :=
  let byte := ByteSpec.ldb 8 bytepos integer
  if bytepos + 8 < bytePosLimit then
    let acc := acc ||| ((byte &&& 0x7f) <<< shift &&& mostPositiveWord)
    if byte.testBit 7 then
      if shift + 7 < 64 then decodeLoop integer (bytepos + 8) (shift + 7) acc prev else none
    else if acc = 0 then some ([], bytepos + 8)
    else if prev + acc < locLimit then
      (decodeLoop integer (bytepos + 8) 0 0 (prev + acc)).map fun (locs, pos) =>
        ((prev + acc) :: locs, pos)
    else none
  else none
termination_by bytePosLimit - bytepos

def decode (integer pos : ℕ) : Option (List ℕ × ℕ) := decodeLoop integer pos 0 0 0

def unpackCodeFixupLocs (packedInteger : ℕ) : Option (List ℕ × List ℕ × List ℕ) := do
  let (list1, pos) ← decode packedInteger 0
  let (list2, pos) ← decode packedInteger pos
  let (list3, _) ← decode packedInteger pos
  some (list1, list2, list3)

/-! ## The reader of the runtime -/

/-- `struct varint_unpacker`, with the bytes that `data` points to. -/
structure VarintUnpacker where
  data : ℕ → ℕ
  index : ℕ
  limit : ℕ

def nWordBytes : ℕ := 8

/-- `varint_unpacker_init`: a fixnum has one word, and a bignum has the digits of its bits and its
sign. -/
def varintUnpackerInit (integer : ℕ) : VarintUnpacker where
  data i := ByteSpec.ldb 8 (8 * i) integer
  index := 0
  limit := if integer < 2 ^ 62 then nWordBytes else (integer.size / 64 + 1) * nWordBytes

/-- The loop of `varint_unpack`. -/
def varintUnpackLoop (unpacker : VarintUnpacker) (accumulator shift : ℕ) :
    Option (ℕ × VarintUnpacker) :=
  let byte := unpacker.data unpacker.index
  let accumulator := (accumulator ||| (byte &&& 0x7F) <<< shift) % 2 ^ 32
  if ¬byte.testBit 7 then some (accumulator, { unpacker with index := unpacker.index + 1 })
  else if unpacker.index + 1 < unpacker.limit then
    varintUnpackLoop { unpacker with index := unpacker.index + 1 } accumulator (shift + 7)
  else none
termination_by unpacker.limit - unpacker.index

/-- `varint_unpack`, with no result at the end of the data. -/
def varintUnpack (unpacker : VarintUnpacker) : Option (Option ℕ × VarintUnpacker) :=
  if unpacker.index ≥ unpacker.limit then some (none, unpacker)
  else (varintUnpackLoop unpacker 0 0).map fun (result, unpacker) => (some result, unpacker)

theorem varintUnpackLoop_index {u u' : VarintUnpacker} {acc shift v : ℕ}
    (h : varintUnpackLoop u acc shift = some (v, u')) :
    u'.limit = u.limit ∧ u.index < u'.index := by
  fun_induction varintUnpackLoop u acc shift with
  | case1 =>
    obtain ⟨-, rfl⟩ := Prod.mk.inj (Option.some.inj h)
    exact ⟨rfl, Nat.lt_succ_self _⟩
  | case2 u acc shift byte _ _ _ ih =>
    obtain ⟨h1, h2⟩ := ih h
    exact ⟨h1, (Nat.lt_succ_self _).trans h2⟩
  | case3 => cases h

theorem varintUnpack_left {u u' : VarintUnpacker} {v : ℕ} (h : varintUnpack u = some (some v, u')) :
    u'.limit - u'.index < u.limit - u.index := by
  unfold varintUnpack at h
  split at h
  · cases h
  obtain ⟨⟨v', u''⟩, hloop, heq⟩ := Option.map_eq_some_iff.1 h
  cases heq
  obtain ⟨h1, h2⟩ := varintUnpackLoop_index hloop
  omega

def skipDataStream (unpacker : VarintUnpacker) : Option VarintUnpacker :=
  match _h : varintUnpack unpacker with
  | none => none
  | some (none, unpacker) => some unpacker
  | some (some val, unpacker) => if val ≠ 0 then skipDataStream unpacker else some unpacker
termination_by unpacker.limit - unpacker.index
decreasing_by exact varintUnpack_left _h

/-- The loop that gets each location of a stream from the one before it, as in `adjust_code_refs`.
-/
def applyStream (unpacker : VarintUnpacker) (prevLoc : ℕ) : Option (List ℕ × VarintUnpacker) :=
  match _h : varintUnpack unpacker with
  | none => none
  | some (none, unpacker) => some ([], unpacker)
  | some (some loc, unpacker) =>
    if loc ≠ 0 then
      let loc := (loc + prevLoc) % 2 ^ 32
      (applyStream unpacker loc).map fun (locs, unpacker) => (loc :: locs, unpacker)
    else some ([], unpacker)
termination_by unpacker.limit - unpacker.index
decreasing_by exact varintUnpack_left _h

end Sbcl.VarInteger
