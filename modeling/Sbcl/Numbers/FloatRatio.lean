import Sbcl.Printer.Flonum

/-!
# Conversion of a ratio to a float (code/float.lisp)

* `roundExtraBits` : the bits of a quotient below its precision are rounded away;
* `floatRatio` : `double-float-ratio` and `single-float-ratio`, up to the last step, which scales
  the significand.

The quotient of two floats, where the numerator and the denominator are exactly floats, is an
instruction.
-/

namespace Sbcl.Numbers

open Printer

/-- Between `most-negative-exactly-double-float-integer` and
`most-positive-exactly-double-float-integer`; the same of a single float. -/
def exactlyFloatInteger (type : FloatType) (n : ℤ) : Bool :=
  decide (-2 ^ type.digits ≤ n ∧ n ≤ 2 ^ type.digits)

/-- The quotient of two integers that are exactly floats, or a significand to be scaled, with its
sign. -/
inductive RatioFloat where
  | quotient (num den : ℤ)
  | scaled (plusp : Bool) (x shift : ℤ)
deriving DecidableEq

/-- The bits of `x`, and whether there is more below it. -/
def roundExtraBits (x extraBits : ℤ) (inexact : Bool) : ℤ :=
  let mask := ash 1 (extraBits - 1)
  let low := logior x (if inexact then 1 else 0)
  let x := if logtest low mask && logtest low (3 * mask - 1) then x + mask else x
  logand x (lognot (2 * mask - 1))

/-- `double-float-ratio`, `single-float-ratio`, of the numerator and the denominator. -/
def floatRatio (type : FloatType) (signedNum den : ℤ) : RatioFloat :=
  if exactlyFloatInteger type signedNum && exactlyFloatInteger type den then .quotient signedNum den
  else
    let plusp := decide (0 < signedNum)
    let num := if plusp then signedNum else -signedNum
    let digits : ℤ := type.digits
    let minExp : ℤ := 1 - type.bias
    let aBits : ℤ := integerLength num
    let bBits : ℤ := integerLength den
    let diff := aBits - bBits
    let shift := max diff (minExp - 1) - digits - 2
    let shiftedNum := ash num (-shift)
    let inexact := if shift < 0 then false else decide (ldb shift.toNat 0 num ≠ 0)
    let x := shiftedNum.tdiv den
    let rem := shiftedNum.tmod den
    let inexact := inexact || decide (rem ≠ 0)
    let xBits : ℤ := integerLength x
    let extraBits := max xBits (minExp - shift) - digits
    .scaled plusp (roundExtraBits x extraBits inexact) shift

end Sbcl.Numbers
