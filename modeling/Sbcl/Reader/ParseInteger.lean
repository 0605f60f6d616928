import Sbcl.Reader.Integer

/-!
# Parsing an integer of any string (code/reader.lisp)

* `StringArray` : a simple string, or an array header over another string; `withArrayData` finds the
  data vector and offset;
* `skipWhitespace`, `computeAt`, `skipTrailing` : the loops over the indices of the data vector;
* `parseIntegerOf` : the body of `parse-integer`, and of its variants in the radices 10 and 16, by
  words.

The indices of the loops are those of the data vector. As in the model for simple strings, nothing
is returned where a number would not be of its declared type.
-/

namespace Sbcl.Reader

open Sbcl.Printer

variable (ucdDecimalDigit : ℕ → Option ℕ)

/-- A string: a data vector, or a header that is displaced into another array by a number of
elements. -/
inductive StringArray
  | simple (data : List Char)
  | header (data : StringArray) (displacement totalSize fillPointer : ℕ)

namespace StringArray

/-- All elements of the array. -/
def elements : StringArray → List Char
  | simple data => data
  | header data displacement totalSize _ => (data.elements.drop displacement).take totalSize

/-- The length of the string. -/
def length : StringArray → ℕ
  | simple data => data.length
  | header _ _ _ fillPointer => fillPointer

/-- Every header lies in its data, and every fill pointer in its array. -/
def WellFormed : StringArray → Prop
  | simple _ => True
  | header data displacement totalSize fillPointer =>
    data.WellFormed ∧ displacement + totalSize ≤ data.elements.length ∧ fillPointer ≤ totalSize

/-- The characters of the string. -/
def chars (string : StringArray) : List Char := string.elements.take string.length

/-- The loop of `%with-array-data-macro`, with the offset so far. -/
def dataVector : StringArray → ℕ → List Char × ℕ
  | simple data, cumulativeOffset => (data, cumulativeOffset)
  | header data displacement _ _, cumulativeOffset =>
    data.dataVector (cumulativeOffset + displacement)

end StringArray

/-- What `with-array-data` binds. -/
structure ArrayData where
  data : List Char
  start : ℕ
  stop : ℕ
  offset : ℕ

/-- `with-array-data` with `:check-fill-pointer`, or nothing for indices that do not bound a part of
the string. -/
def withArrayData (string : StringArray) (start : ℕ) (stop : Option ℕ) : Option ArrayData :=
  let size := string.length
  let defaultedEnd := stop.getD size
  if start ≤ defaultedEnd ∧ defaultedEnd ≤ size then
    let (data, cumulativeOffset) := string.dataVector 0
    some ⟨data, cumulativeOffset + start, cumulativeOffset + defaultedEnd, cumulativeOffset⟩
  else
    none

/-! ## The loops -/

/-- `(char string i)`. -/
def charAt (data : List Char) (i : ℕ) : Char := data.getD i default

/-- The index of the first character from `i` on that is no whitespace, if there is one before the
end. -/
def skipWhitespace (data : List Char) (stop i : ℕ) : Option ℕ :=
  if stop ≤ i then none
  else if whitespace1p (charAt data i) then skipWhitespace data stop (i + 1)
  else some i
termination_by stop - i

/-- The loop over the whitespace behind the digits: the index it ends at, or nothing where there is
junk. -/
def skipTrailing (data : List Char) (stop index : ℕ) : Option ℕ :=
  let index := index + 1
  if stop ≤ index then some index
  else if whitespace1p (charAt data index) then skipTrailing data stop index
  else none
termination_by stop - index

/-- What `compute` leaves in the variables. -/
structure Computed where
  result : ℕ
  foundDigit : Bool
  index : ℕ
deriving DecidableEq

/-- `compute`, with numbers below the limit, if there is one. -/
def computeAt (limit : Option ℕ) (radix : ℕ) (junkAllowed : Bool) (data : List Char)
    (stop index result : ℕ) (foundDigit : Bool) : Option (Except ParseError Computed) :=
  if stop ≤ index then some (.ok ⟨result, foundDigit, index⟩)
  else
    let char := charAt data index
    match digitCharP ucdDecimalDigit char radix with
    | some weight =>
      if limit.all fun limit => weight + result * radix < limit then
        computeAt limit radix junkAllowed data stop (index + 1) (weight + result * radix) true
      else none
    | none =>
      if junkAllowed then some (.ok ⟨result, foundDigit, index⟩)
      else if whitespace1p char then
        match skipTrailing data stop index with
        | some index => some (.ok ⟨result, foundDigit, index⟩)
        | none => some (.error .junk)
      else some (.error .junk)
termination_by stop - index

/-- The body; `wordLength` is the `max-length` of the variants in a fixed radix. -/
def parseIntegerData (wordLength : Option ℕ) (radix : ℕ) (junkAllowed : Bool) (string : ArrayData) :
    Option (Except ParseError (Option ℤ × ℕ)) :=
  match skipWhitespace string.data string.stop string.start with
  | none => some (if junkAllowed then .ok (none, string.stop) else .error .noNonWhitespace)
  | some index =>
    let char := charAt string.data index
    let minusp := char = '-'
    let index := if char = '-' ∨ char = '+' then index + 1 else index
    let limit := wordLength.bind fun maxLength =>
      if string.stop - index ≤ maxLength then some (2 ^ nWordBits) else none
    match computeAt ucdDecimalDigit limit radix junkAllowed string.data string.stop
      index 0 false with
    | none => none
    | some (.error e) => some (.error e)
    | some (.ok computed) =>
      let finalResult : ℤ := if minusp then -computed.result else computed.result
      if computed.foundDigit then some (.ok (some finalResult, computed.index - string.offset))
      else if junkAllowed then some (.ok (none, computed.index - string.offset))
      else some (.error .noDigits)

/-- The three definitions of the macro. -/
inductive Variant
  | parseInteger (radix : Base)
  | parseInteger10
  | parseInteger16

namespace Variant

def radix : Variant → Base
  | parseInteger radix => radix
  | parseInteger10 => ⟨10, Nat.le_add_left 2 8, Nat.le_add_right 10 26⟩
  | parseInteger16 => ⟨16, Nat.le_add_left 2 14, Nat.le_add_right 16 20⟩

/-- `max-length`, of the variants with a word loop. -/
def wordLength : Variant → Option ℕ
  | parseInteger _ => none
  | parseInteger10 => some (maxLength parseInteger10.radix)
  | parseInteger16 => some (maxLength parseInteger16.radix)

end Variant

/-- `parse-integer`, `parse-integer10` and `parse-integer16`. -/
def parseIntegerOf (variant : Variant) (string : StringArray) (start : ℕ) (stop : Option ℕ)
    (junkAllowed : Bool) : Option (Except ParseError (Option ℤ × ℕ)) :=
  match withArrayData string start stop with
  | none => some (.error .boundingIndices)
  | some string =>
    parseIntegerData ucdDecimalDigit variant.wordLength variant.radix.val junkAllowed string

end Sbcl.Reader
