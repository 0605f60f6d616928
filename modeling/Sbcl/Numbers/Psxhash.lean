import Sbcl.Numbers.Compare

/-!
# Hash codes of numbers for `equalp` (code/target-sxhash.lisp, code/bignum.lisp,
code/cross-sxhash.lisp)

* `mix` : mixes two hash codes;
* `sxhashBignum` : the digits of a bignum, mixed from the first to the last;
* `sxhashBignumFloat` : `sxhash-bignum-double-float`, `sxhash-bignum-single-float`, the digits of
  the integer that a float is;
* `hashFloat`, `numberPsxhash` : the integers and the floats of `number-psxhash`.

The conversion of a single-float to a double-float is an instruction, and a parameter.
-/

namespace Sbcl.Numbers

open SbBignum Limbs Printer

def mostPositiveFixnum : ℤ := 2 ^ nPositiveFixnumBits - 1

def mix (x y : ℤ) : ℤ :=
  let mul := logand 3622009729038463111 mostPositiveFixnum
  let xor := logand 608948948376289905 mostPositiveFixnum
  let xy := logand (x * mul + y) mostPositiveFixnum
  logand (logxor (logxor xor xy) (ash xy (-5))) mostPositiveFixnum

/-- A digit, mixed into the result. -/
def mixDigit (result digit : ℤ) : ℤ :=
  mix result (logand mostPositiveFixnum (logxor digit (ash digit (-7))))

def sxhashBignum (x : Bignum) : ℤ :=
  dotimes x.length 316495330 fun i result => mixDigit result (x.ref i).toNat

/-- `none` is the error of the decoding. -/
def sxhashBignumFloat (type : FloatType) (number : FloatBits type) : Option ℤ := do
  let (bits, exp, sign) ← integerDecodeFloat type number
  let bits : ℤ := if sign < 0 then -bits else bits
  let digits := truncate exp digitSize
  let remaining := Int.tmod exp digitSize
  let result := dotimes digits.toNat 316495330 fun _ result => mix result 0
  let rightHalf := ldb digitSize 0 (ash bits remaining)
  let signBitP := rightHalf.testBit (digitSize - 1)
  let leftHalf := ash bits (remaining - digitSize)
  let leftHalfP := if signBitP then leftHalf ≠ -1 else leftHalf ≠ 0
  let result := mixDigit result rightHalf
  if leftHalfP then return mixDigit result (ldb digitSize 0 leftHalf)
  return result

/-- `sxhash-fixnum-xform`. -/
def sxhashFixnum (x : ℤ) : ℤ :=
  let c := logand 1193941380939624010 mostPositiveFixnum
  logand (logxor (logxor (ash x 4) (ash x (-1))) c) mostPositiveFixnum

/-- `sxhash-single-float-xform`. -/
def sxhashSingleFloat (x : FloatBits .singleFloat) : ℤ :=
  let bits : ℤ := x.toNat
  logxor 66194023 (sxhashFixnum (logand mostPositiveFixnum (logxor bits (ash bits (-7)))))

/-- `sxhash-double-float-xform`. -/
def sxhashDoubleFloat (x : FloatBits .doubleFloat) : ℤ :=
  let x := x.toInt
  logand (logxor (logxor (ash x 4) (ash x (-2))) (logandc2 mostPositiveFixnum 1193941380939624010))
    mostPositiveFixnum

def integerSxhash : LispInteger → ℤ
  | .fixnum n => sxhashFixnum n.val
  | .bignum b => sxhashBignum b

/-- `single-float-negative-infinity`, `single-float-positive-infinity`. -/
def singleFloatInfinity (negative : Bool) : FloatBits .singleFloat :=
  if negative then 0xFF800000#32 else 0x7F800000#32

variable (widen : FloatBits .singleFloat → FloatBits .doubleFloat)

/-- `(coerce key 'double-float)`. -/
def coerceDouble : (type : FloatType) → FloatBits type → FloatBits .doubleFloat
  | .singleFloat, key => widen key
  | .doubleFloat, key => key

def hashFloat (type : FloatType) (key : FloatBits type) : Option ℤ :=
  match integerDecodeFloat type key with
  | some (bits, exp, sign) =>
    let number : ℚ := sign * bits * 2 ^ exp
    if mostNegativeFixnumFloat ≤ number ∧ number ≤ mostPositiveFixnumFloat type then
      let q := ⌊number⌋
      if number - q = 0 then some (sxhashFixnum q)
        else some (sxhashDoubleFloat (coerceDouble widen type key))
    else sxhashBignumFloat type key
  | none =>
    if ldbBits type.significandByte key = 0 then some
      (sxhashSingleFloat (singleFloatInfinity key.msb))
    else sxhashBignumFloat type key

/-- The keys that are integers and floats. -/
inductive RealKey where
  | integer (key : LispInteger)
  | float (type : FloatType) (key : FloatBits type)

def numberPsxhash : RealKey → Option ℤ
  | .integer key => some (integerSxhash key)
  | .float type key => hashFloat widen type key

end Sbcl.Numbers
