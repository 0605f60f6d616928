import Sbcl.Compiler.SignedConstantDiv

/-!
# Comparing a remainder with zero (compiler/srctran.lisp)

* `mulinv` : the inverse of an odd divisor, by Euclid's algorithm on truncated values;
* `rotateRightWord` : the rotation of a word, as a deposit;
* `signedRemainderEqZero`, `unsignedRemainderTest` : what the transforms of `truncate` put in place
  of a remainder that is only compared with zero.
-/

namespace Sbcl.Compiler

/-- The loop of `mulinv`; the second value of each pair is what the first is congruent to, as a
multiple of the divisor. -/
def mulinvLoop (x1 v1 x2 v2 : ℤ) : ℤ :=
  if 1 < v2 then
    let q := Int.fdiv v1 v2
    mulinvLoop x2 v2 (x1 - q * x2) (v1 - q * v2)
  else x2
termination_by v2.toNat
decreasing_by
  have hmod : v1 - Int.fdiv v1 v2 * v2 = v1.fmod v2 := by rw [Int.fmod_def, mul_comm]
  have hlt : v1.fmod v2 < v2 := Int.fmod_lt_of_pos v1 (by omega)
  omega

def mulinv (d mod : ℤ) : ℤ := logand mod (mulinvLoop mod (logand (-d) mod) 1 d)

def rotateRightWord (n : ℤ) (count : ℕ) : ℤ :=
  Integer.dpb n count (nWordBits - count) (ash n (-count))

def countTrailingZeros (integer : ℤ) : ℕ :=
  let integer := ldb nWordBits 0 integer
  integerLength (ldb nWordBits 0 (logand integer (-integer) - 1))

/-- The product with the inverse of an odd divisor, as a word. -/
def wordProduct (x inv : ℤ) : ℤ := logand mostPositiveWord (logand mostPositiveWord x * inv)

/-- What stands for the comparison of the remainder of a signed word with zero. -/
def signedRemainderEqZero (y x : ℤ) : Bool :=
  let maxX := mostPositiveWord
  if y % 2 = 1 then
    let inv := mulinv |y| maxX
    let cmp := truncate maxX |y|
    !decide (logand mostPositiveWord (wordProduct x inv + ash cmp (-1)) > cmp)
  else
    let zeros := countTrailingZeros |y|
    let odd := ash |y| (-zeros)
    let inv := mulinv odd maxX
    let add := Integer.dpb 0 zeros 0 (truncate (ash maxX (-1)) odd)
    let cmp := ash add (1 - zeros)
    !decide (rotateRightWord (logand mostPositiveWord (wordProduct x inv + add)) zeros > cmp)

/-- What stands for the comparison of the remainder of a word with zero: whether it is positive, if
`plusp`, and whether it is zero otherwise. -/
def unsignedRemainderTest (y : ℤ) (high : Option ℤ) (plusp : Bool) (x : ℤ) : Option Bool :=
  if logand y (y - 1) = 0 then none
  else do
    let wrapIf : Bool → Bool := fun test => if plusp then test else !test
    if y % 2 = 1 then
      let maxX := ash 1 (integerLength (maxX high)) - 1
      let inv := mulinv y maxX
      let product ← trulyThe 0 mostPositiveWord (logand (x * inv) maxX)
      return wrapIf (decide (product > truncate maxX y))
    else
      let maxX := mostPositiveWord
      let zeros := countTrailingZeros y
      let inv := mulinv (ash y (-zeros)) maxX
      let product ← trulyThe 0 mostPositiveWord (logand (x * inv) maxX)
      return wrapIf (decide (rotateRightWord product zeros > truncate maxX y))

end Sbcl.Compiler
