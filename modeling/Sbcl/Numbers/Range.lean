import Sbcl.Lib.NearestFloat
import Sbcl.Numbers.Compare

/-!
# A real between two fixnums (code/numbers.lisp)

* `singleFloatOf` : `float` of a fixnum, which has a single-float where it is given no prototype;
* `floatFixnumRangeComparer` : the ends against the quotient of a float;
* `rangeLt`, `rangeLe`, `rangeLtLe`, `rangeLeLt` : `range<`, `range<=`, `range<<=` and `range<=<`.

A comparison of two floats, and the quotient of a float in the range of fixnums, are instructions,
on the number that the float is.
-/

namespace Sbcl.Numbers

open SbBignum Printer

/-- `(float n)` of a fixnum: the nearest number of as many digits as a single-float has, the even
one of two. -/
def singleFloatOf (n : ℤ) : ℚ :=
  let unit := 2 ^ (integerLength n.natAbs - FloatType.singleFloat.digits)
  n.sign * (BinaryFloat.roundEven (n.natAbs / unit) * unit)

/-- A real: a rational or a float. -/
inductive RealArg where
  | rational (x : Operand)
  | float (type : FloatType) (bits : FloatBits type)

/-- `<`, `<=`, `<<=` and `<=<`. -/
inductive RangeOp where
  | lt | le | ltLe | leLt
  deriving DecidableEq

/-- `make-float-fixnum-range-comparer`, of a float that is not an infinity or a NaN. -/
def floatFixnumRangeComparer (type : FloatType) (operation : RangeOp) (low high : ℤ)
    (float : ℚ) : Bool :=
  if mostPositiveFixnumFloat type < float ∨ float < mostNegativeFixnumFloat then false
  else
    let quot := unaryTruncate float
    match operation with
    | .lt =>
      if high < quot ∨ quot < low ∨ low = high then false
      else if quot = high then decide (float < 0) && decide (float ≠ singleFloatOf quot)
      else if quot = low then decide (0 < float) && decide (float ≠ singleFloatOf quot)
      else true
    | .le =>
      if high < quot ∨ quot < low then false
      else if quot = high then (decide (float < 0) && decide (low ≠ high)) ||
        decide (float = singleFloatOf quot)
      else if quot = low then decide (0 < float) || decide (float = singleFloatOf quot)
      else true
    | .ltLe =>
      if high < quot ∨ quot < low ∨ low = high then false
      else if quot = high then decide (float < 0) || decide (float = singleFloatOf quot)
      else if quot = low then decide (0 < float) && decide (float ≠ singleFloatOf quot)
      else true
    | .leLt =>
      if high < quot ∨ quot < low ∨ low = high then false
      else if quot = high then decide (float < 0) && decide (float ≠ singleFloatOf quot)
      else if quot = low then decide (0 < float) || decide (float = singleFloatOf quot)
      else true

/-- The branch of a ratio. -/
def ratioInRange (low high : Fixnum) (x : Ratio) : Bool :=
  let minusp := decide (x.numerator < 0)
  let x := truncate x.numerator x.denominator
  if ¬(-2 ^ nPositiveFixnumBits ≤ x ∧ x < 2 ^ nPositiveFixnumBits) ∨ x < low.val ∨ high.val < x then
    false
  else if low.val = high.val then false
  else if x = high.val then minusp
  else if x = low.val then !minusp
  else true

def defRange (op : RangeOp) (lowOp highOp : CompareOp) (low : Fixnum) (x : RealArg)
    (high : Fixnum) : Bool :=
  match x with
  | .rational (.fixnum x) => lowOp.holds low.val x.val && highOp.holds x.val high.val
  | .float type bits =>
    match infOrNanTest type bits, integerDecodeFloat type bits with
    | none, some (int, exp, sign) =>
      floatFixnumRangeComparer type op low.val high.val (sign * int * 2 ^ exp)
    | _, _ => false
  | .rational (.bignum _) => false
  | .rational (.ratio x) => ratioInRange low high x

/-- `range<`. -/
def rangeLt : Fixnum → RealArg → Fixnum → Bool := defRange .lt .lt .lt

/-- `range<=`. -/
def rangeLe : Fixnum → RealArg → Fixnum → Bool := defRange .le .le .le

/-- `range<<=`. -/
def rangeLtLe : Fixnum → RealArg → Fixnum → Bool := defRange .ltLe .lt .le

/-- `range<=<`. -/
def rangeLeLt : Fixnum → RealArg → Fixnum → Bool := defRange .leLt .le .lt

end Sbcl.Numbers
