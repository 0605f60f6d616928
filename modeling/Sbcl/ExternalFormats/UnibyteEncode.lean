import Mathlib.Data.Fintype.Defs
import Mathlib.Data.List.GetD
import Sbcl.Lib.ByteSpec

/-!
# Encoding unibyte formats (code/octets.lisp)

* `Exception`, `byteToCodeTable`, `pairs`, `sortedLookupTable` : the tables of
  `define-unibyte-mapper`;
* `UnibyteMapper` : the two functions it defines, `byteChar` and `codeByte`, with the binary search
  of `codeByte`;
* `getLatinBytes`, `stringToLatin` : `get-latin-bytes` and `string->latin%`, with the slow path from
  the first error on.

`codeByte` returns nothing where the code would read beyond the end of its table, and the macro
where its expansion is an error. A character is its code.
-/

namespace Sbcl.Unibyte

/-! ## The mapper -/

/-- An entry `(byte code)` of the exceptions; the list behind the byte may be empty, and the code
may be `nil`. -/
structure Exception where
  byte : Fin 256
  rest : List (Option ℕ)

section Tables

variable (exceptions : List Exception)

/-- `(cdr (assoc byte exceptions))`. -/
def exceptionOf (byte : ℕ) : List (Option ℕ) :=
  ((exceptions.find? fun entry => entry.byte.val = byte).map (·.rest)).getD []

/-- The code of a byte, if it has one. -/
def codeOf (byte : ℕ) : Option ℕ :=
  match exceptionOf exceptions byte with
  | [] => some byte
  | code :: _ => code

/-- The list of the codes and bytes. -/
def pairs : List (ℕ × ℕ) :=
  (List.range 256).filterMap fun byte => (codeOf exceptions byte).map fun code => (code, byte)

/-- The smallest byte of an exception. -/
def lowestNonEquivalentCode : Option ℕ :=
  (exceptions.mergeSort fun a b => a.byte.val ≤ b.byte.val).head?.map fun entry => entry.byte.val

/-- `(subseq list start)`. -/
def subseq {α : Type*} (list : List α) (start : ℕ) : Option (List α) :=
  if start ≤ list.length then some (list.drop start) else none

def sortedLookupTable (sortedPairs : List (ℕ × ℕ)) : List ℕ :=
  sortedPairs.flatMap fun (code, byte) => [code, byte]

/-- The table of `byteChar`, with -1 for no translation. -/
def byteToCodeTable : List ℤ :=
  (List.range 256).map fun byte => ((codeOf exceptions byte).map Nat.cast).getD (-1)

theorem length_sortedLookupTable (sortedPairs : List (ℕ × ℕ)) :
    (sortedLookupTable sortedPairs).length = 2 * sortedPairs.length := by
  induction sortedPairs with
  | nil => rfl
  | cons pair rest ih =>
    rw [sortedLookupTable, List.flatMap_cons, List.length_append, ← sortedLookupTable, ih,
      List.length_cons]
    simp only [List.length_cons, List.length_nil]
    omega

/-- What the generated functions refer to. -/
structure UnibyteMapper where
  byteToCode : List ℤ
  lowest : ℕ
  codeToByteTable : List ℕ
  even_length : codeToByteTable.length % 2 = 0

def defineUnibyteMapper : Option UnibyteMapper := do
  let lowest ← lowestNonEquivalentCode exceptions
  let cut ← subseq (pairs exceptions) lowest
  let sortedPairs := cut.mergeSort fun a b => a.1 ≤ b.1
  pure ⟨byteToCodeTable exceptions, lowest, sortedLookupTable sortedPairs, by
    rw [length_sortedLookupTable, Nat.mul_mod_right]⟩

end Tables

/-- `(logandc2 x 1)`. -/
def logandc2One (x : ℕ) : ℕ := x - x % 2

/-- The loop of the search, over the even indices. -/
def searchLoop (table : List ℕ) (code : ℕ) (low high : ℕ) (hlow : low % 2 = 0)
    (hhigh : high % 2 = 0) : ℕ :=
  if low < high then
    let mid := logandc2One ((low + high + 2) / 2)
    have hmid : mid % 2 = 0 := by
      unfold mid logandc2One
      omega
    if code < table.getD mid 0 then searchLoop table code low (mid - 2) hlow (by omega)
    else searchLoop table code mid high hmid hhigh
  else low
termination_by high - low
decreasing_by
  all_goals
    have hdef : mid = logandc2One ((low + high + 2) / 2) := rfl
    unfold logandc2One at hdef
    omega

namespace UnibyteMapper

/-- The function from bytes to codes. -/
def byteChar (mapper : UnibyteMapper) (byte : Fin 256) : Option ℕ :=
  let code := mapper.byteToCode.getD byte.val 0
  if 0 ≤ code then some code.toNat else none

/-- The function from codes to bytes; without an entry `high` begins below `low`, here with the same
number. -/
def codeByte (mapper : UnibyteMapper) (code : ℕ) : Option (Option ℕ) :=
  if code < mapper.lowest then some (some code)
  else do
    let table := mapper.codeToByteTable
    let high := table.length - 2
    have hhigh : high % 2 = 0 := by
      have hlength : table.length % 2 = 0 := mapper.even_length
      have hdef : high = table.length - 2 := rfl
      omega
    let low := searchLoop table code 0 high rfl hhigh
    let found ← table[low]?
    if code = found then
      let byte ← table[low + 1]?
      pure (some byte)
    else
      pure none

end UnibyteMapper

/-! ## Strings -/

/-- What `get-latin-bytes` returns: an octet, or the octets of a replacement. -/
inductive LatinBytes
  | octet (byte : Fin 256)
  | replacement (octets : List (Fin 256))

/-- `get-latin-bytes`, of a mapper of codes and the octets that `encoding-error` returns at an
index. -/
def getLatinBytes (mapper : ℕ → Option ℕ) (encodingError : ℕ → List (Fin 256)) (string : List ℕ)
    (pos : ℕ) : LatinBytes :=
  match mapper (string.getD pos 0) with
  | some code => if h : code < 256 then .octet ⟨code, h⟩ else .replacement (encodingError pos)
  | none => .replacement (encodingError pos)

section Loops

variable (getBytes : ℕ → LatinBytes) (send : ℕ)

/-- What the first loop leaves: the octets, or what the second one begins with. -/
inductive FirstLoop
  | octets (octets : List (Fin 256))
  | error (octets : List (Fin 256)) (index errorPosition : ℕ) (errorReplacement : List (Fin 256))

/-- The loop at `:no-error`. -/
def noErrorLoop (octets : List (Fin 256)) (pos index : ℕ) : FirstLoop :=
  if send ≤ pos then .octets octets
  else
    match getBytes pos with
    | .octet byte => noErrorLoop (octets.set index byte) (pos + 1) (index + 1)
    | .replacement replacement => .error octets index pos replacement
termination_by send - pos

def extend (newOctets : List (Fin 256)) : LatinBytes → List (Fin 256)
  | .octet byte => newOctets ++ [byte]
  | .replacement octets => newOctets ++ octets

/-- The loop at `:error`. -/
def errorLoop (newOctets : List (Fin 256)) (pos : ℕ) : List (Fin 256) :=
  if send ≤ pos then newOctets else errorLoop (extend newOctets (getBytes pos)) (pos + 1)
termination_by send - pos

end Loops

/-- What follows the first loop. -/
def afterFirstLoop (getBytes : ℕ → LatinBytes) (send : ℕ) (nullPadding : Bool) :
    FirstLoop → List (Fin 256)
  | .octets octets => octets
  | .error octets index errorPosition errorReplacement =>
    let newOctets := extend (octets.take index) (.replacement errorReplacement)
    let newOctets := errorLoop getBytes send newOctets (errorPosition + 1)
    if nullPadding then newOctets ++ [0] else newOctets

/-- `string->latin%`. -/
def stringToLatin (getBytes : ℕ → LatinBytes) (sstart send : ℕ) (nullPadding : Bool) :
    List (Fin 256) :=
  let octets := List.replicate (send - sstart + nullPadding.toNat) 0
  afterFirstLoop getBytes send nullPadding (noErrorLoop getBytes send octets sstart 0)

end Sbcl.Unibyte
