import Sbcl.Lib.NearestFloat
import Sbcl.Printer.FlonumCorrect
import Sbcl.Reader.Token

/-!
# Reading floats (code/reader.lisp)

* `FloatFormat`, `coerceRational` : the formats, and the number of a format that a rational is
  coerced to;
* `truncateExponent` : `truncate-exponent`;
* `accumulate`, `readFraction`, `makeFloat` : the number of a token buffer.

`coerce` of a rational to a float is the nearest float, the even one of two, or a signalled
overflow; nothing is signalled where this is zero.
-/

namespace Sbcl.Reader

open Sbcl.Printer BinaryFloat

variable (ucdDecimalDigit : ℕ → Option ℕ)

inductive FloatFormat where
  | shortFloat | singleFloat | doubleFloat | longFloat
  | rational
deriving DecidableEq

/-- The short floats are single floats, and the long floats are double floats. -/
def FloatFormat.floatType : FloatFormat → Option FloatType
  | shortFloat | singleFloat => some .singleFloat
  | doubleFloat | longFloat => some .doubleFloat
  | rational => none

/-- A float without its sign, by its bits, or a rational, or an error of the reader for an overflow.
-/
inductive ReadNumber where
  | float (negative : Bool) (type : FloatType) (bits : ℕ)
  | rational (r : ℚ)
  | impossibleNumberError
deriving DecidableEq

def coerceRational (format : FloatFormat) (r : ℚ) : ReadNumber :=
  match format.floatType with
  | none => .rational r
  | some type =>
    let bits := type.format.nearest r
    if bits < type.infinity then .float false type bits else .impossibleNumberError

def makeFloatAux (number : ℚ) (divisor : ℕ) (format : FloatFormat) : ReadNumber :=
  coerceRational format (number / divisor)

/-- `-`. -/
def ReadNumber.negate : ReadNumber → ReadNumber
  | float negative type bits => float (!negative) type bits
  | rational r => rational (-r)
  | impossibleNumberError => impossibleNumberError

/-- `double-float-digits` and `double-float-bias`. -/
def maxExponent : ℤ := FloatType.doubleFloat.digits + FloatType.doubleFloat.bias

def magnitude (number divisor : ℕ) : ℤ :=
  let numberMagnitude : ℤ := integerLength number
  let divisorMagnitude : ℤ := integerLength divisor - 1
  numberMagnitude - divisorMagnitude

/-- `(floor (log 10 2))`. -/
def log10 : ℕ := Nat.log 2 10

/-- The bounds of the exponents, below zero and from zero on. -/
def minTruncated (number divisor : ℕ) : ℤ :=
  ⌈((-(maxExponent + magnitude number divisor) : ℤ) : ℚ) / log10⌉

def maxTruncated (number divisor : ℕ) : ℤ :=
  ⌊((maxExponent - magnitude number divisor : ℤ) : ℚ) / log10⌋

def truncateExponent (exponent : ℤ) (number divisor : ℕ) : ℤ :=
  if exponent < 0 then max exponent (minTruncated number divisor) else min exponent
    (maxTruncated number divisor)

/-! ## The token buffer -/

/-- `!setq-optional-leading-sign`: whether it is a minus, and the characters after the sign. -/
def optionalLeadingSign : List Char → Bool × List Char
  | [] => (false, [])
  | ch :: rest => if ch = '-' then (true, rest) else if ch = '+' then (false,
    rest) else (false, ch :: rest)

/-- `accumulate`: the state after the digits, the character that is no digit, and those after it. -/
def accumulate {σ : Type} (expr : ℕ → σ → σ) : List Char → σ → σ × Option Char × List Char
  | [], state => (state, none, [])
  | char :: rest, state =>
    match digitCharP ucdDecimalDigit char 10 with
    | some digit => accumulate expr rest (expr digit state)
    | none => (state, some char, rest)

/-- The format of an exponent marker. -/
def markerFormat (readDefaultFloatFormat : FloatFormat) (floatChar : Char) : Option FloatFormat :=
  match floatChar.toUpper with
  | 'E' => some readDefaultFloatFormat
  | 'S' => some .shortFloat
  | 'F' => some .singleFloat
  | 'D' => some .doubleFloat
  | 'L' => some .longFloat
  | 'R' => some .rational
  | _ => none

/-- The divisor and the number of the digits before and after the dot, and what `accumulate` leaves.
-/
def readFraction (buf : List Char) : (ℕ × ℕ) × Option Char × List Char :=
  let (number, char, buf) :=
    accumulate ucdDecimalDigit (fun digit number => number * 10 + digit) buf 0
  if char = some '.' then
    accumulate ucdDecimalDigit (fun digit (divisor, number) =>
      (divisor * 10, number * 10 + digit)) buf (1, number)
  else ((1, number), char, buf)

/-- `make-float`, of the characters in the buffer; `none` where they are no legal float. -/
def makeFloat (readDefaultFloatFormat : FloatFormat) (buf : List Char) : Option ReadNumber :=
  let (negativeFraction, buf) := optionalLeadingSign buf
  let ((divisor, number), char, buf) := readFraction ucdDecimalDigit buf
  match char with
  | none =>
    let num := makeFloatAux number divisor readDefaultFloatFormat
    some (if negativeFraction then num.negate else num)
  | some floatChar =>
    if constituentTrait floatChar = .constituentExpt then do
      let (negativeExponent, buf) := optionalLeadingSign buf
      let (exponent, _, _) :=
        accumulate ucdDecimalDigit (fun digit exponent => exponent * 10 + digit) buf 0
      let exponent : ℤ := if negativeExponent then -exponent else exponent
      let floatFormat ← markerFormat readDefaultFloatFormat floatChar
      let exponent := truncateExponent exponent number divisor
      let result := makeFloatAux (10 ^ exponent * number) divisor floatFormat
      return if negativeFraction then result.negate else result
    else none

end Sbcl.Reader
