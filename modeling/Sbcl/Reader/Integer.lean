import Sbcl.Printer.Integer

/-!
# Reading integers (code/reader.lisp)

* `digitCharP` : the weight of a character in a base (code/target-char.lisp);
* `integerReaderSafeDigits`, `makeInteger` : the integer of a token buffer, by groups of digits
  whose number is a fixnum;
* `parseInteger`, `parseIntegerTransformed` : the integer of a part of a string, in any radix, and
  in 10 and 16 by words.

`ucdDecimalDigit` is the table of the decimal digits from the character 1633 on. Nothing is returned
where a number would not be of its declared type.
-/

namespace Sbcl.Reader

open Sbcl.Printer

variable (ucdDecimalDigit : ℕ → Option ℕ)

def digitCharP (char : Char) (radix : ℕ) : Option ℕ :=
  let code := char.toNat
  if code ≤ 1632 then
    if code < 48 then none
    else
      let weight := code - 48
      if radix ≤ 10 then if weight < radix then some weight else none
      else if weight < 10 then some weight
      else
        -- Letters in lower case.
        let weight : ℤ := (32 ||| code : ℕ) - 87
        if 10 ≤ weight ∧ weight < radix then some weight.toNat else none
  else
    match ucdDecimalDigit code with
    | none => none
    | some number => if number < radix then some number else none

def mostPositiveFixnum : ℕ := 2 ^ 62 - 1

/-- The loop of `integer-reader-safe-digits` from the number `total` of digits that are all the
highest. -/
def safeDigitsLoop (base : Base) (total nDigits : ℕ) : ℕ :=
  if mostPositiveFixnum < total then nDigits
  else safeDigitsLoop base (total * base.val + (base.val - 1)) (nDigits + 1)
termination_by mostPositiveFixnum + 1 - total
decreasing_by
  have hmul : total * 1 ≤ total * base.val := Nat.mul_le_mul_left total base.one_lt.le
  have := base.one_lt
  omega

def integerReaderSafeDigits (base : Base) : ℕ := safeDigitsLoop base (base.val - 1) 0

/-- The loop of `make-integer` in a group of which `digitCount` digits are read. -/
def makeIntegerLoop (base : Base) : List Char → ℕ → ℕ → ℕ → Option ℕ
  | [], digitCount, acc, result =>
  some (if result = 0 then acc else result * base.val ^ digitCount + acc)
  | ch :: rest, digitCount, acc, result =>
    if ch = '.' then some (if result = 0 then acc else result * base.val ^ digitCount + acc)
    else do
      let weight ← digitCharP ucdDecimalDigit ch base.val
      let acc := weight + acc * base.val
      if mostPositiveFixnum < acc then none
      else if digitCount + 1 = integerReaderSafeDigits base then
        makeIntegerLoop base rest 0 0 (result * base.val ^ integerReaderSafeDigits base + acc)
      else makeIntegerLoop base rest (digitCount + 1) acc result

/-- `make-integer` of the characters in the buffer. -/
def makeInteger (base : Base) : List Char → Option ℤ
  | [] => none
  | ch :: rest =>
    if ch = '-' then (makeIntegerLoop ucdDecimalDigit base rest 0 0 0).map
      fun result : ℕ => -(result : ℤ)
    else if ch = '+' then (makeIntegerLoop ucdDecimalDigit base rest 0 0 0).map
      fun result : ℕ => (result : ℤ)
    else (makeIntegerLoop ucdDecimalDigit base (ch :: rest) 0 0 0).map
      fun result : ℕ => (result : ℤ)

/-! ## Strings -/

/-- `whitespace[1]p`. -/
def whitespace1p (char : Char) : Bool := char.toNat ∈ [9, 10, 32, 12, 13]

inductive ParseError where
  /-- no non-whitespace characters in string ~S. -/
  | noNonWhitespace
  /-- junk in string ~S -/
  | junk
  /-- no digits in string ~S -/
  | noDigits
  /-- The bounds are no bounds of the string. -/
  | boundingIndices
deriving DecidableEq

/-- What the loop over the digits leaves: the result, whether there was a digit, and the characters
from the index on. -/
structure Parsed where
  result : ℕ
  foundDigit : Bool
  rest : List Char

/-- `compute`, with numbers below the limit, if there is one. -/
def compute (limit : Option ℕ) (radix : ℕ) (junkAllowed : Bool) : List Char → ℕ → Bool →
    Option (Except ParseError Parsed)
  | [], result, foundDigit => some (.ok ⟨result, foundDigit, []⟩)
  | char :: rest, result, foundDigit =>
    match digitCharP ucdDecimalDigit char radix with
    | some weight =>
      let result := weight + result * radix
      if limit.all fun limit => result < limit then compute limit radix junkAllowed rest result true
        else none
    | none =>
      if junkAllowed then some (.ok ⟨result, foundDigit, char :: rest⟩)
      else if whitespace1p char then
        if rest.all whitespace1p then some (.ok ⟨result, foundDigit, []⟩) else some (.error .junk)
      else some (.error .junk)

/-- The body, on the characters between the indices `start` and `stop`; `wordLength` is how many
digits are a word for sure. -/
def parseIntegerBody (wordLength : Option ℕ) (radix : ℕ) (junkAllowed : Bool) (stop : ℕ)
    (string : List Char) : Option (Except ParseError (Option ℤ × ℕ)) :=
  match string.dropWhile whitespace1p with
  | [] => some (if junkAllowed then .ok (none, stop) else .error .noNonWhitespace)
  | char :: rest =>
    let minusp := char = '-'
    let digits := if char = '-' ∨ char = '+' then rest else char :: rest
    let limit := wordLength.bind fun maxLength =>
      if digits.length ≤ maxLength then some (2 ^ nWordBits) else none
    match compute ucdDecimalDigit limit radix junkAllowed digits 0 false with
    | none => none
    | some (.error e) => some (.error e)
    | some (.ok parsed) =>
      let finalResult : ℤ := if minusp then -parsed.result else parsed.result
      if parsed.foundDigit then some (.ok (some finalResult, stop - parsed.rest.length))
      else if junkAllowed then some (.ok (none, stop - parsed.rest.length))
      else some (.error .noDigits)

/-- The bounds of a string of the size `length`. -/
def parseIntegerBounded (wordLength : Option ℕ) (radix : ℕ) (string : List Char) (start : ℕ)
    (stop : Option ℕ) (junkAllowed : Bool) : Option (Except ParseError (Option ℤ × ℕ)) :=
  let stop := stop.getD string.length
  if start ≤ stop ∧ stop ≤ string.length then
    parseIntegerBody ucdDecimalDigit wordLength radix junkAllowed stop
      ((string.drop start).take (stop - start))
  else some (.error .boundingIndices)

def parseInteger (string : List Char) (start : ℕ) (stop : Option ℕ) (radix : Base)
    (junkAllowed : Bool) : Option (Except ParseError (Option ℤ × ℕ)) :=
  parseIntegerBounded ucdDecimalDigit none radix.val string start stop junkAllowed

/-- The loop for `max-length`, from the number `mi` of `i` digits that are all the highest. -/
def maxLengthLoop (radix : Base) (mi i : ℕ) : ℕ :=
  if 2 ^ nWordBits - 1 < mi then i - 1 else maxLengthLoop radix
    (mi * radix.val + (radix.val - 1)) (i + 1)
termination_by 2 ^ nWordBits - mi
decreasing_by
  have hle : mi ≤ 2 ^ 64 - 1 := not_lt.1 ‹¬2 ^ nWordBits - 1 < mi›
  show 2 ^ 64 - (mi * radix.val + (radix.val - 1)) < 2 ^ 64 - mi
  have hmul : mi * 1 ≤ mi * radix.val := Nat.mul_le_mul_left mi radix.one_lt.le
  have := radix.one_lt
  omega

def maxLength (radix : Base) : ℕ := maxLengthLoop radix (radix.val - 1) 1

/-- `parse-integer10` and `parse-integer16` are this function in their radix. -/
def parseIntegerTransformed (radix : Base) (string : List Char) (start : ℕ) (stop : Option ℕ)
    (junkAllowed : Bool) : Option (Except ParseError (Option ℤ × ℕ)) :=
  parseIntegerBounded ucdDecimalDigit (some (maxLength radix)) radix.val string start
    stop junkAllowed

def parseInteger10 := parseIntegerTransformed ucdDecimalDigit ⟨10, by decide, by decide⟩

def parseInteger16 := parseIntegerTransformed ucdDecimalDigit ⟨16, by decide, by decide⟩

end Sbcl.Reader
