import Sbcl.Numbers.Rational

/-!
# A number times a fixnum that has to be a fixnum (code/numbers.lisp)

* `Number` : the numbers; `twoArgMulFixnum` : `two-arg-*` with a fixnum;
* `timesFixnum` : `*-by-fixnum-to-fixnum`, with what becomes of the call.

The floats and their products are parameters, and so is the gcd of bignums. Nothing is returned
where a division by zero is signalled.
-/

namespace Sbcl.Numbers

open SbBignum Rational

/-- A number: a rational, a complex rational, a float or a complex float. -/
inductive Number (Float : Type) where
  | rational (x : Rational)
  | complex (realpart imagpart : Rational)
  | float (x : Float)
  | complexFloat (realpart imagpart : Float)
  deriving DecidableEq

variable {Float : Type}

/-- `canonical-complex` of two rationals. -/
def canonicalComplex (realpart imagpart : Rational) : Number Float :=
  if imagpart = integer 0 then .rational realpart else .complex realpart imagpart

section
variable (bignumGcd : ℤ → ℤ → ℤ) (floatTimes : Float → ℤ → Float)

/-- `two-arg-*` of a number and a fixnum. -/
def twoArgMulFixnum (n : Number Float) (f : ℤ) : Option (Number Float) :=
  match n with
  | .rational x => (twoArgMul bignumGcd x (integer f)).map .rational
  | .complex realpart imagpart => do
      some (canonicalComplex (← twoArgMul bignumGcd realpart (integer f))
        (← twoArgMul bignumGcd imagpart (integer f)))
  | .float x => some (.float (floatTimes x f))
  | .complexFloat realpart imagpart =>
    some (.complexFloat (floatTimes realpart f) (floatTimes imagpart f))

/-- What becomes of a call: it returns a fixnum, a type error is signalled, or the code marked
unreachable is reached. -/
inductive Outcome where
  | returned (n : ℤ)
  | typeError
  | unreachable
  deriving DecidableEq

/-- `(the fixnum n)` as the result. -/
def theFixnum (n : ℤ) : Outcome := if fixnump n then .returned n else .typeError

/-- `err`: the product is declared a fixnum, so a type error is signalled, or control goes on behind
it. -/
def err (n : Number Float) (f : ℤ) : Option Outcome := do
  match ← twoArgMulFixnum bignumGcd floatTimes n f with
  | .rational (integer product) => if fixnump product then some .unreachable else some .typeError
  | _ => some .typeError

/-- `(typep n 'sb-vm:signed-word)` of an integer. -/
def signedWordp (n : ℤ) : Bool := decide (-2 ^ 63 ≤ n ∧ n < 2 ^ 63)

/-- `*-by-fixnum-to-fixnum`. -/
def timesFixnum (n : Number Float) (f : ℤ) : Option Outcome :=
  match n with
  | .rational (ratio num den) =>
    if f = 0 then some (.returned 0)
    else if fixnump num && fixnump den then do
      let (q, r) ← truncateInteger f den
      if r = 0 then some (theFixnum (q * num)) else err bignumGcd floatTimes n f
    else err bignumGcd floatTimes n f
  | .rational (integer bignum) =>
    if f = 0 then some (.returned 0)
    else if signedWordp bignum && f = -1 && bignum = -mostNegativeFixnum.val then some
      (.returned mostNegativeFixnum.val)
    else err bignumGcd floatTimes n f
  | .complex _ _ => if f = 0 then some (.returned 0) else err bignumGcd floatTimes n f
  | .float _ => err bignumGcd floatTimes n f
  | .complexFloat _ _ => err bignumGcd floatTimes n f

end

end Sbcl.Numbers
