import Sbcl.Compiler.ConstantDivCorrect

/-!
# Division of a signed word by a constant (compiler/srctran.lisp)

* `IsSignedWord`, `trulyThe`, `signedMultiplyHigh` : the operations of the generated expressions; a
  `truly-the` whose value is outside its type, and a `%signed-multiply-high` of something else than
  signed words, have no value;
* `genSignedTruncateByConstantExpr` : the quotient of `x`, with the multiplier of the unsigned
  division;
* `signedTruncateByConstant` : quotient and remainder, as the transform of `truncate` generates them
  where no caller compares the remainder with zero.
-/

namespace Sbcl.Compiler

/-- `sb-vm:signed-word` as a type of integers. -/
def IsSignedWord (n : ℤ) : Prop := -2 ^ 63 ≤ n ∧ n < 2 ^ 63

instance (n : ℤ) : Decidable (IsSignedWord n) := inferInstanceAs (Decidable (_ ∧ _))

/-- `(truly-the (integer lo hi) n)`. -/
def trulyThe (lo hi n : ℤ) : Option ℤ := if lo ≤ n ∧ n ≤ hi then some n else none

/-- `(truly-the sb-vm:signed-word n)`. -/
def trulyTheSignedWord (n : ℤ) : Option ℤ := trulyThe (-2 ^ 63) (2 ^ 63 - 1) n

def signedMultiplyHigh (a b : ℤ) : Option ℤ :=
  if IsSignedWord a ∧ IsSignedWord b then some (ash (a * b) (-nWordBits)) else none

/-- The high part of the product with the multiplier; one that is no signed word loses its leading
one. -/
def signedProductHigh (m x : ℤ) : Option ℤ :=
  if m < 2 ^ (nWordBits - 1) then signedMultiplyHigh x m
  else (signedMultiplyHigh x (m - 2 ^ nWordBits)).bind fun high => trulyTheSignedWord (x + high)

/-- The generated expression, from the multiplier `m` and the shift after the product. -/
def signedTruncateForm (y m : ℤ) (shift : ℕ) (x : ℤ) : Option ℤ := do
  let code := ash (← signedProductHigh m x) (-shift)
  let sign := ash x (1 - nWordBits)
  return if y < 0 then sign - code else code - sign

/-- The expression as a function of `x`; the declared type of the divisor and the `aver` are checked
first. -/
def genSignedTruncateByConstantExpr (y precision : ℤ) : Option (ℤ → Option ℤ) :=
  if IsSignedWord y ∧ logand y (y - 1) ≠ 0 then
    let (m, shift) := chooseMultiplier |y| precision
    some (signedTruncateForm y m shift)
  else none

/-- The type of the dividend, which is of signed words: the bounds of a numeric type that has both
of them, or something else, which may have negative members or none. -/
inductive DividendType where
  | bounded (low high : ℤ)
  | other (negative : Bool)

namespace DividendType

/-- `precision` and `max-x`. -/
def precision : DividendType → ℤ × ℤ
  | bounded low high => (max (integerLength high) (integerLength low), max high |low|)
  | other _ => (nWordBits - 1, 2 ^ (nWordBits - 1))

/-- The type has negative members, as `types-equal-or-intersect` finds. -/
def Negative : DividendType → Prop
  | bounded low _ => low < 0
  | other negative => negative = true

instance (type : DividendType) : Decidable type.Negative :=
  match type with
  | bounded low _ => inferInstanceAs (Decidable (low < 0))
  | other negative => inferInstanceAs (Decidable (negative = true))

/-- The members of a type, which are signed words. -/
def Has (type : DividendType) (x : ℤ) : Prop :=
  match type with
  | bounded low high => IsSignedWord low ∧ IsSignedWord high ∧ low ≤ x ∧ x ≤ high
  | other negative => IsSignedWord x ∧ (x < 0 → negative = true)

end DividendType

/-- The generated forms around the quotient. -/
def signedTruncateBody (y maxX : ℤ) (expr : ℤ → Option ℤ) (x : ℤ) : Option (ℤ × ℤ) := do
  let quot ← trulyThe (-truncate maxX |y|) (truncate maxX |y|) (← expr x)
  let rem ← trulyThe (1 - |y|) (|y| - 1) (x - (← trulyTheSignedWord (quot * y)))
  return (quot, rem)

/-- The transform gives up on zero, one and the powers of two, and leaves a positive divisor of no
negative dividend to the transform of words. -/
def signedTruncateByConstant (y : ℤ) (type : DividendType) : Option (ℤ → Option (ℤ × ℤ)) :=
  if logand |y| (|y| - 1) = 0 ∨ 0 < y ∧ ¬ type.Negative then none
  else (genSignedTruncateByConstantExpr y type.precision.1).map
    (signedTruncateBody y type.precision.2)

end Sbcl.Compiler
