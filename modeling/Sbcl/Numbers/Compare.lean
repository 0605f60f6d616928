import Sbcl.Bignum.ArithmeticCorrect
import Sbcl.Bignum.Float

/-!
# Comparison of a float with a rational (code/numbers.lisp)

* `floatBignumEq`, `floatBignumLt`, `floatBignumGt` : a float and a bignum, by their lengths and
  their upper and lower bits;
* `fixnumFloatComparer` : a fixnum and a float, by the quotient of the float;
* `compareIntegerRatio`, `compareRatioInteger` : an integer and a ratio;
* `compareFloatRational`, `compareRationalFloat` : the branches of `two-arg-<`, `two-arg->`,
  `two-arg-<=`, `two-arg->=` and `two-arg-=` for a float and a rational, in both orders.

A comparison of two floats, and a quotient of a float in the range of fixnums, are instructions, on
the number that the float is; so is the conversion of a fixnum to a float, which is a parameter. A
comparison of two integers is one of their values.
-/

namespace Sbcl.Numbers

open SbBignum Printer

inductive CompareOp where
  | lt | gt | le | ge | eq
deriving DecidableEq

def CompareOp.holds {α : Type*} [LinearOrder α] (op : CompareOp) (x y : α) : Bool :=
  match op with
  | lt => decide (x < y)
  | gt => decide (y < x)
  | le => decide (x ≤ y)
  | ge => decide (y ≤ x)
  | eq => decide (x = y)

/-- The operation with its arguments in the other order. -/
def CompareOp.swap : CompareOp → CompareOp
  | lt => gt
  | gt => lt
  | le => ge
  | ge => le
  | eq => eq

/-- A ratio, which is in lowest terms and no integer. -/
structure Ratio where
  numerator : ℤ
  denominator : ℤ
  one_lt : 1 < denominator
  coprime : Int.gcd numerator denominator = 1

/-- The argument that is not a float. -/
inductive Operand where
  | fixnum (n : Fixnum)
  | bignum (b : NormalBignum)
  | ratio (r : Ratio)

variable (type : FloatType)

/-- The significand with the hidden bit, and its sign. -/
def signedSignificand (bits : FloatBits type) : ℤ :=
  let sig := type.hiddenBit ||| ldbBits type.significandByte bits
  if bits.msb then -sig else sig

/-! ## Bignums -/

/-- `sb-vm:n-fixnum-bits`. -/
def nFixnumBits : ℕ := nPositiveFixnumBits + 1

/-- `float-bignum-=`. -/
def floatBignumEq (bits : FloatBits type) (bignum : Bignum) : Bool :=
  let bignumLength := bignum.length
  let exp := ldbBits type.exponentByte bits
  if exp < nFixnumBits + type.bias then false
  else
    let exp := exp - type.bias - type.digits
    let int := signedSignificand type bits
    let intLength := integerLength int
    decide (bignumBufferIntegerLength bignum.ref bignumLength = intLength + exp) &&
      (bignumLowerBitsZeroP bignum exp bignumLength &&
        decide (int = lastBignumPart (digitSize - 1 - intLength) exp bignum))

/-- `float-bignum-<`. -/
def floatBignumLt (bits : FloatBits type) (bignum : Bignum) : Bool :=
  let bignumLength := bignum.length
  let exp := ldbBits type.exponentByte bits
  if exp < nFixnumBits + type.bias then bignum0OrPlusp bignum.ref bignumLength
  else
    let exp := exp - type.bias - type.digits
    let int := signedSignificand type bits
    let intLength := integerLength int
    let lengthDiff : ℤ := bignumBufferIntegerLength bignum.ref bignumLength - (intLength + exp : ℕ)
    if 0 < lengthDiff then bignum0OrPlusp bignum.ref bignumLength
    else if lengthDiff < 0 then bits.msb
    else
      let diff := lastBignumPart (digitSize - 1 - intLength) exp bignum - int
      if 0 < diff then true
      else if diff < 0 then false
      else !bignumLowerBitsZeroP bignum exp bignumLength

/-- `float-bignum->`. -/
def floatBignumGt (bits : FloatBits type) (bignum : Bignum) : Bool :=
  let bignumLength := bignum.length
  let exp := ldbBits type.exponentByte bits
  if exp < nFixnumBits + type.bias then !bignum0OrPlusp bignum.ref bignumLength
  else
    let exp := exp - type.bias - type.digits
    let int := signedSignificand type bits
    let intLength := integerLength int
    let lengthDiff : ℤ := bignumBufferIntegerLength bignum.ref bignumLength - (intLength + exp : ℕ)
    if 0 < lengthDiff then !bignum0OrPlusp bignum.ref bignumLength
    else if lengthDiff < 0 then !bits.msb
    else decide (lastBignumPart (digitSize - 1 - intLength) exp bignum < int)

/-- A float and a bignum. -/
def compareFloatBignum (op : CompareOp) (bits : FloatBits type) (bignum : Bignum) : Bool :=
  match op with
  | .gt => floatBignumGt type bits bignum
  | .lt => floatBignumLt type bits bignum
  | .ge => !floatBignumLt type bits bignum
  | .le => !floatBignumGt type bits bignum
  | .eq => floatBignumEq type bits bignum

/-- A bignum and a float. -/
def compareBignumFloat (op : CompareOp) (bignum : Bignum) (bits : FloatBits type) : Bool :=
  match op with
  | .gt => floatBignumLt type bits bignum
  | .lt => floatBignumGt type bits bignum
  | .ge => !floatBignumGt type bits bignum
  | .le => !floatBignumLt type bits bignum
  | .eq => floatBignumEq type bits bignum

/-! ## Fixnums -/

/-- `most-positive-fixnum-double-float`, `most-positive-fixnum-single-float`: the largest float
below the range. -/
def mostPositiveFixnumFloat : ℚ := (2 ^ type.digits - 1) * 2 ^ (nPositiveFixnumBits - type.digits)

/-- `most-negative-fixnum-double-float`, `most-negative-fixnum-single-float`. -/
def mostNegativeFixnumFloat : ℚ := -2 ^ nPositiveFixnumBits

def unaryTruncate (x : ℚ) : ℤ := if 0 ≤ x then ⌊x⌋ else ⌈x⌉

/-- `make-fixnum-float-comparer`; `floorVop` where there is an instruction for `%unary-floor`, and
`toFloat` converts a fixnum to a float of the type. -/
def fixnumFloatComparer (floorVop : Bool) (toFloat : ℤ → ℚ) (op : CompareOp) (integer : ℤ)
    (float : ℚ) : Bool :=
  if mostPositiveFixnumFloat type < float then
    match op with
    | .eq | .gt | .ge => false
    | .lt | .le => true
  else if float < mostNegativeFixnumFloat then
    match op with
    | .eq | .lt | .le => false
    | .gt | .ge => true
  else if floorVop then
    match op with
    | .eq =>
      let quot := unaryTruncate float
      decide (quot = integer) && decide (toFloat quot = float)
    | .gt => decide (⌊float⌋ < integer)
    | .lt => decide (integer < ⌈float⌉)
    | .ge =>
      let quot := ⌊float⌋
      decide (quot < integer) || (decide (integer = quot) && decide (toFloat quot = float))
    | .le =>
      let quot := ⌈float⌉
      decide (integer < quot) || (decide (integer = quot) && decide (toFloat quot = float))
  else
    let quot := unaryTruncate float
    match op with
    | .eq => decide (quot = integer) && decide (toFloat quot = float)
    | .gt =>
      if quot < integer then true
      else if integer < quot then false
      else if integer ≤ 0 then decide (float < toFloat quot)
      else false
    | .lt =>
      if integer < quot then true
      else if quot < integer then false
      else if 0 ≤ integer then decide (toFloat quot < float)
      else false
    | .ge =>
      if quot < integer then true
      else if integer < quot then false
      else decide (float < 0) || decide (toFloat quot = float)
    | .le =>
      if integer < quot then true
      else if quot < integer then false
      else decide (0 ≤ float) || decide (toFloat quot = float)

/-- An integer and a ratio, which are not equal. -/
def compareIntegerRatio (op : CompareOp) (x : ℤ) (y : Ratio) : Bool :=
  match op with
  | .lt | .le => decide (x < ⌈(y.numerator / y.denominator : ℚ)⌉)
  | .gt | .ge => decide (⌊(y.numerator / y.denominator : ℚ)⌋ < x)
  | .eq => false

/-- A ratio and an integer. -/
def compareRatioInteger (op : CompareOp) (x : Ratio) (y : ℤ) : Bool :=
  match op with
  | .lt | .le => decide (⌊(x.numerator / x.denominator : ℚ)⌋ < y)
  | .gt | .ge => decide (y < ⌈(x.numerator / x.denominator : ℚ)⌉)
  | .eq => false

/-- `with-float-inf-or-nan-test`, before the branch of the other argument: the result for an
infinity, which is compared with zero, and for a NaN. -/
def infOrNanTest (bits : FloatBits type) : Option (Option ℤ) :=
  if ldbBits type.exponentByte bits ≤ type.normalExponentMax then none
  else if ldbBits type.significandByte bits = 0 then some (some (if bits.msb then -1 else 1))
  else some none

/-- The operations of a float and a rational. -/
def compareFloatRational (floorVop : Bool) (toFloat : ℤ → ℚ) (op : CompareOp) (x : FloatBits type)
    (y : Operand) : Bool :=
  match infOrNanTest type x, integerDecodeFloat type x with
  | some (some sign), _ => op.holds sign 0
  | none, some (bits, exp, sign) =>
    let float : ℚ := sign * bits * 2 ^ exp
    match y with
    | .fixnum n => if n.val = 0 then op.holds float 0 else fixnumFloatComparer type floorVop toFloat
      op.swap n.val float
    | .bignum b => compareFloatBignum type op x b.toBignum
    | .ratio y =>
      if bits = 0 then compareIntegerRatio op 0 y
      else
        let int : ℤ := if float < 0 then -bits else bits
        if exp < 0 then op.holds (int * y.denominator) (ash y.numerator (-exp))
        else compareIntegerRatio op (ash int exp) y
  | _, _ => false

/-- The operations of a rational and a float. -/
def compareRationalFloat (floorVop : Bool) (toFloat : ℤ → ℚ) (op : CompareOp) (x : Operand)
    (y : FloatBits type) : Bool :=
  match infOrNanTest type y, integerDecodeFloat type y with
  | some (some sign), _ => op.holds 0 sign
  | none, some (bits, exp, sign) =>
    let float : ℚ := sign * bits * 2 ^ exp
    match x with
    | .fixnum n => fixnumFloatComparer type floorVop toFloat op n.val float
    | .bignum b => compareBignumFloat type op b.toBignum y
    | .ratio x =>
      if bits = 0 then compareRatioInteger op x 0
      else
        let int : ℤ := if float < 0 then -bits else bits
        if exp < 0 then op.holds (ash x.numerator (-exp)) (int * x.denominator)
        else compareRatioInteger op x (ash int exp)
  | _, _ => false

end Sbcl.Numbers
