import Sbcl.Compiler.IntegerType
import Sbcl.Compiler.SignedConstantDiv

/-!
# Floor and ceiling through truncate and shifts (compiler/srctran.lisp)

* `floorValues`, `ceilingValues`, `truncateValues` : the two values that the language asks for;
* `floorByTruncate`, `ceilingByTruncate` : the correction of `truncate` by the sign of the divisor,
  with the types that the rewrites assert; a value outside an asserted type is no value;
* `ceilingOfFixnums` : the quotient of two fixnums that are not negative;
* `floorByPowerOfTwo`, `ceilingByPowerOfTwo`, `truncateByPowerOfTwo` : shifts and masks, where a
  transform that gives up is `none`.
-/

namespace Sbcl.Compiler

def floorValues (number divisor : ℤ) : ℤ × ℤ := (number.fdiv divisor, number.fmod divisor)

def ceilingValues (number divisor : ℤ) : ℤ × ℤ := (-(-number).fdiv divisor, -(-number).fmod divisor)

def truncateValues (number divisor : ℤ) : ℤ × ℤ := (number.tdiv divisor, number.tmod divisor)

/-! ## Through truncate -/

instance (n : ℤ) (t : IntegerType) : Decidable (n ∈ t) := inferInstanceAs (Decidable (_ ∧ _))

instance (t : Ctype) (n : ℤ) : Decidable (t.Mem n) := inferInstanceAs (Decidable (∃ s ∈ t, n ∈ s))

/-- A subtype of `(integer low high)`. -/
def IntegerType.Within (t : IntegerType) (low high : ℤ) : Prop :=
  (∃ l ∈ t.low, low ≤ l) ∧ ∃ h ∈ t.high, h ≤ high

instance (t : IntegerType) (low high : ℤ) : Decidable (t.Within low high) :=
  inferInstanceAs (Decidable (_ ∧ _))

/-- What the transforms know: the types of the arguments, of the truncated quotient, and of the
first value as the program asserts it. -/
structure RoundingTypes where
  number : IntegerType
  divisor : IntegerType
  truncate : Ctype
  asserted : Ctype

/-- `truncate-type`, intersected with the signed words where the asserted type has no other members.
-/
def RoundingTypes.HasTruncate (types : RoundingTypes) (tru : ℤ) : Prop :=
  types.truncate.Mem tru ∧ ((∀ s ∈ types.asserted, s.Within (-2 ^ 63) (2 ^ 63 - 1)) →
    IsSignedWord tru)

instance (types : RoundingTypes) (tru : ℤ) : Decidable (types.HasTruncate tru) :=
  inferInstanceAs (Decidable (_ ∧ _))

/-- The largest magnitude of a member, where both bounds are present. -/
def IntegerType.maxAbs (t : IntegerType) : Option ℤ := do return max |← t.low| |← t.high|

/-- `(integer low high)`, of which a bound may be `*`. -/
def InRange (range : Option ℤ × Option ℤ) (n : ℤ) : Prop :=
  (∀ l ∈ range.1, l ≤ n) ∧ ∀ h ∈ range.2, n ≤ h

instance (range : Option ℤ × Option ℤ) (n : ℤ) : Decidable (InRange range n) :=
  inferInstanceAs (Decidable (_ ∧ _))

/-- `rem-type` of `floor`. -/
def floorRemType (divisor : IntegerType) : Option ℤ × Option ℤ :=
  (divisor.low.map fun low => if low ≥ 0 then 0 else 1 + low,
    divisor.high.map fun high => if high ≤ 0 then 0 else high - 1)

/-- `quot-type` of `floor`. -/
def floorQuotType (number : IntegerType) : Option ℤ × Option ℤ :=
  (number.maxAbs.map (-·), number.maxAbs)

def floorByTruncate (types : RoundingTypes) (number divisor : ℤ) : Option (ℤ × ℤ) :=
  let (tru, rem) := truncateValues number divisor
  if ¬types.HasTruncate tru then none
  else if (if divisor < 0 then rem > 0 else rem < 0) then
    if (InRange (floorQuotType types.number) (tru - 1) ∧ types.asserted.Mem (tru - 1)) ∧
        InRange (floorRemType types.divisor) (rem + divisor) then some (tru - 1, rem + divisor)
    else none
  else if InRange (floorRemType types.divisor) rem then some (tru, rem)
  else none

/-- `rem-type` of `ceiling`. -/
def ceilingRemType (divisor : IntegerType) : Option ℤ × Option ℤ :=
  (divisor.high.map fun high => if high ≤ 1 then 0 else 1 - high,
    divisor.low.map fun low => if low ≥ -1 then 0 else -1 - low)

/-- `quot-type` of `ceiling`, one less where the divisor is neither one nor minus one. -/
def ceilingQuotType (number divisor : IntegerType) : Option ℤ × Option ℤ :=
  let max := number.maxAbs.map fun max =>
    if 1 ∈ divisor ∨ -1 ∈ divisor ∨ max = 1 then max else max - 1
  (max.map (-·), max)

def ceilingByTruncate (types : RoundingTypes) (number divisor : ℤ) : Option (ℤ × ℤ) :=
  let (tru, rem) := truncateValues number divisor
  if ¬types.HasTruncate tru then none
  else if (if divisor < 0 then rem < 0 else rem > 0) then
    if (InRange (ceilingQuotType types.number types.divisor) (tru + 1) ∧
      types.asserted.Mem (tru + 1)) ∧
        InRange (ceilingRemType types.divisor) (rem - divisor) then some (tru + 1, rem - divisor)
    else none
  else if InRange (ceilingRemType types.divisor) rem then some (tru, rem)
  else none

/-- `ceiling` of two nonnegative fixnums, whose remainder nobody uses. -/
def ceilingOfFixnums (number divisor : ℤ) : Option (ℤ × ℤ) := do
  return (← trulyThe (-2 ^ nPositiveFixnumBits) (2 ^ nPositiveFixnumBits - 1)
    (truncate (number + (divisor - 1)) divisor), 0)

/-- `len`, unless the constant is no power of two. -/
def powerOfTwoLength (y : ℤ) : Option ℤ :=
  let len := (integerLength |y| : ℤ) - 1
  if |y| > 0 ∧ |y| = ash 1 len then some len else none

def floorForm (y shift mask x : ℤ) : ℤ × ℤ :=
  if y < 0 then (ash (-x) shift, -logand (-x) mask) else (ash x shift, logand x mask)

def floorByPowerOfTwo (y : ℤ) : Option (ℤ → ℤ × ℤ) := do
  let len ← powerOfTwoLength y
  let shift := -len
  let mask := |y| - 1
  return floorForm y shift mask

/-- The form that does not overflow, for the first value only. -/
def ceilingWordForm (shift x : ℤ) : ℤ × ℤ := if x = 0 then (0, 0) else (1 + ash (x - 1) shift, 0)

def ceilingForm (y shift mask delta x : ℤ) : ℤ × ℤ :=
  let x := x + delta
  if y < 0 then (ash (-x) shift, -logand (-x) mask - delta) else (ash x shift,
    logand x mask - delta)

/-- `ceiling` of a dividend of type `xType`; `singleValue` is true where the second value is not
used, and `derived` is the type of the first. -/
def ceilingByPowerOfTwo (y : ℤ) (xType derived : IntegerType) (singleValue : Bool) :
    Option (ℤ → ℤ × ℤ) := do
  let len ← powerOfTwoLength y
  let shift := -len
  let mask := |y| - 1
  let delta := y.sign * (|y| - 1)
  if 0 < y ∧ singleValue = true ∧ derived.Within 0 mostPositiveWord ∧
    ¬xType.Within 0 (mostPositiveWord - delta) then
    some (ceilingWordForm shift)
  else if (xType.Within (-2 ^ 63) (2 ^ 63 - 1) ∧ ¬xType.Within (-2 ^ 63) (2 ^ 63 - 1 - delta)) ∨
      (xType.Within 0 mostPositiveWord ∧ ¬xType.Within 0 (mostPositiveWord - delta)) then none
  else some (ceilingForm y shift mask delta)

def truncateForm (y shift mask x : ℤ) : ℤ × ℤ :=
  if x < 0 then (if y < 0 then ash (-x) shift else -ash (-x) shift, -logand (-x) mask)
  else (if y < 0 then -ash x shift else ash x shift, logand x mask)

/-- `truncate`; `zerop` is true where the remainder is only compared with zero, and `signedVop`
where the machine truncates signed words by itself. -/
def truncateByPowerOfTwo (y : ℤ) (xType : IntegerType) (zerop signedVop : Bool) :
    Option (ℤ → ℤ × ℤ) := do
  let len ← powerOfTwoLength y
  let shift := -len
  let mask := |y| - 1
  if zerop then some fun x => (truncate x y, logand x mask)
  else if signedVop = true ∧ xType.Within (-2 ^ 63) (2 ^ 63 - 1) ∧
    ¬xType.Within 0 mostPositiveWord then none
  else some (truncateForm y shift mask)

end Sbcl.Compiler
