import Sbcl.Bignum.Truncate

/-!
# Rational arithmetic (code/numbers.lisp)

* `Rational` : an integer, or a ratio of a numerator and a denominator;
* `twoArgAddSub`, `twoArgMul`, `twoArgDiv` : sum, difference, product and quotient of two rationals;
* `truncateRational`, `floor`, `ceiling`, `round` : the quotients with their remainders;
* `addIntegers`, `subtractIntegers`, `multiplyIntegers` : the branches of two integers, on fixnums
  and bignums as they are stored.

On rationals an integer is its value: `fixnump` says which of them are fixnums. Nothing is returned
where a division by zero is signalled. The gcd of bignums is a parameter.
-/

namespace Sbcl.Numbers

open SbBignum

inductive Rational where
  | integer (n : ℤ)
  | ratio (numerator denominator : ℤ)
  deriving DecidableEq

namespace Rational

def numerator : Rational → ℤ
  | integer n => n
  | ratio n _ => n

def denominator : Rational → ℤ
  | integer _ => 1
  | ratio _ d => d

end Rational

open Rational

def fixnump (n : ℤ) : Bool := decide (-2 ^ nPositiveFixnumBits ≤ n ∧ n < 2 ^ nPositiveFixnumBits)

def minusp (n : ℤ) : Bool := decide (n < 0)

/-- `truncate` of two integers, with its remainder. -/
def truncateInteger (number divisor : ℤ) : Option (ℤ × ℤ) :=
  if divisor = 0 then none else some (number.tdiv divisor, number.tmod divisor)

/-- The first value of `truncate`. -/
def truncate1 (number divisor : ℤ) : Option ℤ := (truncateInteger number divisor).map Prod.fst

def maybeTruncate (x y : ℤ) : Option ℤ := if y = 1 then some x else truncate1 x y

def buildRatio (num den : ℤ) : Option Rational :=
  let (num, den) := if minusp den then (-num, -den) else (num, den)
  if den = 0 then none else if den = 1 then some (integer num) else some (ratio num den)

/-- The loop of `fixnum-gcd`. -/
def fixnumGcdLoop (u v : ℕ) : ℕ :=
  if v = 0 then u
  else
    let rem := u % v
    if rem = 0 then v else fixnumGcdLoop v rem
termination_by v
decreasing_by exact Nat.mod_lt _ (Nat.pos_of_ne_zero ‹_›)

def fixnumGcd (u v : ℤ) : ℤ :=
  if u = 0 then |v| else if v = 0 then |u| else fixnumGcdLoop u.natAbs v.natAbs

section
variable (bignumGcd : ℤ → ℤ → ℤ)

/-- `two-arg-gcd`. -/
def gcd (u v : ℤ) : ℤ :=
  if u = 0 then |v|
  else if v = 0 then |u|
  else if fixnump u && fixnump v then fixnumGcd u v
  else bignumGcd u v

/-- `two-arg-+` and `two-arg--`, for the operation `op`. -/
def twoArgAddSub (op : ℤ → ℤ → ℤ) (x y : Rational) : Option Rational :=
  match x, y with
  | integer x, integer y => some (integer (op x y))
  | integer x, ratio ny dy => some (ratio (op (x * dy) ny) dy)
  | ratio nx dx, integer y => some (ratio (op nx (y * dx)) dx)
  | ratio nx dx, ratio ny dy =>
    let g1 := gcd bignumGcd dx dy
    if g1 = 1 then some (ratio (op (nx * dy) (dx * ny)) (dx * dy))
    else do
      let t2 ← truncate1 dx g1
      let u ← truncate1 dy g1
      let t1 := op (nx * u) (t2 * ny)
      let g2 := gcd bignumGcd t1 g1
      if t1 = 0 then some (integer 0)
      else if g2 = 1 then some (ratio t1 (t2 * dy))
      else do
        let nn ← truncate1 t1 g2
        let t3 ← truncate1 dy g2
        let nd := if t2 = 1 then t3 else t2 * t3
        if nd = 1 then some (integer nn) else some (ratio nn nd)

def twoArgAdd : Rational → Rational → Option Rational := twoArgAddSub bignumGcd (· + ·)

def twoArgSub : Rational → Rational → Option Rational := twoArgAddSub bignumGcd (· - ·)

/-- `integer*ratio`. -/
def integerTimesRatio (x ny dy : ℤ) : Option Rational :=
  if x = 0 then some (integer 0)
  else
    let gcd := gcd bignumGcd x dy
    if gcd = 1 then some (ratio (x * ny) dy)
    else do
      let nn := (← truncate1 x gcd) * ny
      let nd ← truncate1 dy gcd
      if nd = 1 then some (integer nn) else some (ratio nn nd)

def twoArgMul (x y : Rational) : Option Rational :=
  match x, y with
  | integer x, integer y => some (integer (x * y))
  | integer x, ratio ny dy => integerTimesRatio bignumGcd x ny dy
  | ratio nx dx, integer y => integerTimesRatio bignumGcd y nx dx
  | ratio nx dx, ratio ny dy => do
      let g1 := gcd bignumGcd nx dy
      let g2 := gcd bignumGcd dx ny
      buildRatio ((← maybeTruncate nx g1) * (← maybeTruncate ny g2))
        ((← maybeTruncate dx g2) * (← maybeTruncate dy g1))

/-! ## Quotients -/

/-- The operands of `build-ratio` for a gcd. -/
def dividedByGcd (x y gcd : ℤ) : Option (ℤ × ℤ) :=
  if gcd = 1 then some (x, y)
  else do
    let num ← truncate1 x gcd
    let den ← truncate1 y gcd
    some (num, den)

def integerDivInteger (x y : ℤ) : Option Rational :=
  if fixnump x && fixnump y then
    if y = 0 then none
    else if x = 0 then some (integer 0)
    else
      let absX := |x|
      let absY := |y|
      if absY > absX then do
        let (quo, rem) ← truncateInteger y x
        if rem = 0 then buildRatio 1 quo
        else do
          let (num, den) ← dividedByGcd x y (gcd bignumGcd x rem)
          buildRatio num den
      else do
        let (quo, rem) ← truncateInteger x y
        if rem = 0 then some (integer quo)
        else do
          let (num, den) ← dividedByGcd x y (gcd bignumGcd y rem)
          buildRatio num den
  else do
    let (num, den) ← dividedByGcd x y (gcd bignumGcd x y)
    buildRatio num den

def twoArgDiv (x y : Rational) : Option Rational :=
  match x, y with
  | ratio nx dx, ratio ny dy => do
      let g1 := gcd bignumGcd nx ny
      let g2 := gcd bignumGcd dx dy
      buildRatio ((← maybeTruncate nx g1) * (← maybeTruncate dy g2))
        ((← maybeTruncate dx g2) * (← maybeTruncate ny g1))
  | integer x, integer y => integerDivInteger bignumGcd x y
  | integer x, ratio ny dy =>
    if x = 0 then some (integer 0)
    else do
      let gcd := gcd bignumGcd x ny
      buildRatio ((← maybeTruncate x gcd) * dy) (← maybeTruncate ny gcd)
  | ratio nx dx, integer y => do
      let gcd := gcd bignumGcd nx y
      buildRatio (← maybeTruncate nx gcd) ((← maybeTruncate y gcd) * dx)

/-! ## Quotients that are integers -/

def truncateRational (number divisor : Rational) : Option (ℤ × Rational) :=
  match number, divisor with
  | integer number, integer divisor => do
      let (q, rem) ← truncateInteger number divisor
      some (q, integer rem)
  | ratio numerator denominator, integer divisor => do
      let (q, rem) ← truncateInteger numerator (denominator * divisor)
      some (q, ratio rem denominator)
  | number, ratio dNum dDen => do
      let qNum := number.numerator * dDen
      let qDen := number.denominator * dNum
      let (q, rem) ← truncateInteger qNum qDen
      some (q, ← twoArgDiv bignumGcd (integer rem) (integer (number.denominator * dDen)))

def floor (number divisor : Rational) : Option (ℤ × Rational) :=
  match number, divisor with
  | integer number, integer divisor => do
      let (tru, rem) ← truncateInteger number divisor
      if (if minusp divisor then rem > 0 else rem < 0) then some (tru - 1, integer (rem + divisor))
      else some (tru, integer rem)
  | ratio numerator denominator, integer divisor => do
      let qNum := numerator
      let qDen := denominator * divisor
      let remDen := denominator
      let (q, rem) ← truncateInteger qNum qDen
      if (if minusp divisor then rem > 0 else rem < 0) then some (q - 1, ratio (rem + qDen) remDen)
      else some (q, ratio rem remDen)
  | number, ratio dNum dDen => do
      let qNum := number.numerator * dDen
      let qDen := number.denominator * dNum
      let remDen := number.denominator * dDen
      let (q, rem) ← truncateInteger qNum qDen
      if (if minusp dNum then rem > 0 else rem < 0) then
        some (q - 1, ← twoArgDiv bignumGcd (integer (rem + qDen)) (integer remDen))
      else some (q, ← twoArgDiv bignumGcd (integer rem) (integer remDen))

def ceiling (number divisor : Rational) : Option (ℤ × Rational) :=
  match number, divisor with
  | integer number, integer divisor => do
      let (tru, rem) ← truncateInteger number divisor
      if (if minusp divisor then rem < 0 else rem > 0) then some (tru + 1, integer (rem - divisor))
      else some (tru, integer rem)
  | ratio numerator denominator, integer divisor => do
      let qNum := numerator
      let qDen := denominator * divisor
      let remDen := denominator
      let (q, rem) ← truncateInteger qNum qDen
      if (if minusp divisor then rem < 0 else rem > 0) then some (q + 1, ratio (rem - qDen) remDen)
      else some (q, ratio rem remDen)
  | number, ratio dNum dDen => do
      let qNum := number.numerator * dDen
      let qDen := number.denominator * dNum
      let remDen := number.denominator * dDen
      let (q, rem) ← truncateInteger qNum qDen
      if (if minusp dNum then rem < 0 else rem > 0) then
        some (q + 1, ← twoArgDiv bignumGcd (integer (rem - qDen)) (integer remDen))
      else some (q, ← twoArgDiv bignumGcd (integer rem) (integer remDen))

/-- `round` of two integers. -/
def roundInteger (number divisor : ℤ) : Option (ℤ × ℤ) := do
  let (tru, rem) ← truncateInteger number divisor
  if rem = 0 then some (tru, rem)
  else
    let thresh := |rem| * 2
    let absDivisor := |divisor|
    if thresh > absDivisor ∨ thresh = absDivisor ∧ tru % 2 = 1 then
      if tru < 0 ∨ tru = 0 ∧ minusp number ≠ minusp divisor then some (tru - 1, rem + divisor)
      else some (tru + 1, rem - divisor)
    else some (tru, rem)

def round (number divisor : Rational) : Option (ℤ × Rational) :=
  match number, divisor with
  | integer number, integer divisor => do
      let (q, rem) ← roundInteger number divisor
      some (q, integer rem)
  | ratio nNum nDen, integer dNum => do
      let qNum := nNum * 1
      let qDen := nDen * dNum
      let (q, rem) ← roundInteger qNum qDen
      some (q, ratio rem (nDen * 1))
  | number, ratio dNum dDen => do
      let qNum := number.numerator * dDen
      let qDen := number.denominator * dNum
      let (q, rem) ← roundInteger qNum qDen
      some (q, ← twoArgDiv bignumGcd (integer rem) (integer (number.denominator * dDen)))

end

/-- The branches of `two-arg-+` for two integers. -/
def addIntegers (fresh : ℕ → Buffer) : LispInteger → LispInteger → LispInteger
  | .fixnum x, .fixnum y => boxInteger (x.val + y.val)
  | .fixnum x, .bignum y => addBignumFixnum fresh y x
  | .bignum x, .fixnum y => addBignumFixnum fresh x y
  | .bignum x, .bignum y => addBignums fresh x y

/-- The branches of `two-arg--` for two integers. -/
def subtractIntegers (fresh : ℕ → Buffer) : LispInteger → LispInteger → LispInteger
  | .fixnum x, .fixnum y => boxInteger (x.val - y.val)
  | .fixnum x, .bignum y => subtractFixnumBignum fresh x y
  | .bignum x, .fixnum y => subtractBignumFixnum fresh x y
  | .bignum x, .bignum y => subtractBignum fresh x y

/-- The branches of `two-arg-*` for two integers. -/
def multiplyIntegers (fresh : ℕ → Buffer) : LispInteger → LispInteger → LispInteger
  | .fixnum x, .fixnum y => boxInteger (x.val * y.val)
  | .bignum x, .fixnum y => multiplyBignumAndFixnum fresh x y
  | .fixnum x, .bignum y => multiplyBignumAndFixnum fresh y x
  | .bignum x, .bignum y => multiplyBignums fresh x y

end Sbcl.Numbers
