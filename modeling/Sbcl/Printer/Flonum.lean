import Sbcl.Printer.Integer
import Mathlib.Data.Rat.Floor

/-!
# The digits of floating point numbers (code/print.lisp, code/float.lisp)

* `integerDecodeFloat` : the significand and the exponent that the bits of a float stand for;
* `initialScaled` : the float `r / s` and its distances `mPlus / s` and `mMinus / s` to the ends of
  the interval;
* `scale`, `fixup` : the same as a fraction of a power of ten;
* `generate` : one digit after the other;
* `flonumToDigits` : the exponent and the digit string, in free format;
* `scaleP` : the digits down to an absolute position, where the distances are rationals, for they
  are at least a half of the unit of the position.

`est` is the estimate of the exponent, which the code computes with floating point numbers. Nothing
is returned for a float that is not finite, where a table has no element, and where the digits do
not end.
-/

namespace Sbcl.Printer

/-! ## The types -/

inductive FloatType where
  | singleFloat
  | doubleFloat
deriving DecidableEq

namespace FloatType

/-- `sb-vm:single-float-digits`, `sb-vm:double-float-digits`. -/
def digits : FloatType → ℕ
  | .singleFloat => 24
  | .doubleFloat => 53

/-- The bits of `single-float-bits`, `double-float-bits`. -/
def width : FloatType → ℕ
  | .singleFloat => 32
  | .doubleFloat => 64

def bias : FloatType → ℕ
  | .singleFloat => 126
  | .doubleFloat => 1022

/-- The size and the position of the byte, as of those below. -/
def exponentByte : FloatType → ℕ × ℕ
  | .singleFloat => (8, 23)
  | .doubleFloat => (11, 52)

def significandByte : FloatType → ℕ × ℕ
  | .singleFloat => (23, 0)
  | .doubleFloat => (52, 0)

def normalExponentMax : FloatType → ℕ
  | .singleFloat => 254
  | .doubleFloat => 0x7FE

def hiddenBit : FloatType → ℕ
  | .singleFloat => 1 <<< 23
  | .doubleFloat => 1 <<< 52

/-- `subnormal-sfloat-exponent`, `subnormal-dfloat-exponent`. -/
def subnormalExponent : FloatType → ℤ
  | .singleFloat => -149
  | .doubleFloat => -1074

/-- `single-float-min-e`, `double-float-min-e`. -/
def minE (type : FloatType) : ℤ := 2 - type.bias - type.digits

/-- The bits of the positive infinity, which follow those of the largest finite float. -/
def infinity (type : FloatType) : ℕ := (type.normalExponentMax + 1) * 2 ^ type.exponentByte.2

end FloatType

abbrev FloatBits (type : FloatType) := BitVec type.width

/-- `ldb` of the bits of a float. -/
def ldbBits {type : FloatType} (byte : ℕ × ℕ) (bits : FloatBits type) : ℕ :=
  bits.toNat / 2 ^ byte.2 % 2 ^ byte.1

variable (type : FloatType)

/-- `integer-decode-single-float`, `integer-decode-double-float`. -/
def integerDecodeFloat (bits : FloatBits type) : Option (ℕ × ℤ × ℤ) :=
  let frac := ldbBits type.significandByte bits
  let sign := if bits.msb then -1 else 1
  let exp := ldbBits type.exponentByte bits
  if exp = 0 then some (frac, if frac = 0 then 0 else type.subnormalExponent, sign)
  else if type.normalExponentMax < exp then none
  else some (type.hiddenBit ||| frac, exp - type.bias - type.digits, sign)

def floatPrecision (bits : FloatBits type) : ℕ :=
  if ldbBits type.exponentByte bits = 0 then integerLength (ldbBits type.significandByte bits)
    else type.digits

/-- The fraction of a subnormal is moved to the left of its field. -/
def leftAligned (bits : FloatBits type) : Option (ℕ × ℤ) := do
  let (f, e, _) ← integerDecodeFloat type bits
  if floatPrecision type bits < type.digits then
    let shift := type.digits - integerLength f
    some (f <<< shift, e - shift)
  else some (f, e)

/-! ## The integers of the algorithm -/

structure Scaled where
  r : ℕ
  s : ℕ
  mPlus : ℕ
  mMinus : ℕ
deriving DecidableEq

/-- An element of the table of the powers of two. -/
def expt2 (n : ℕ) : Option ℕ := if n ≤ 972 then some (2 ^ n) else none

/-- An element of the table of the powers of ten. -/
def expt10 (n : ℕ) : Option ℕ := if n ≤ 323 then some (10 ^ n) else none

def initialScaled (f : ℕ) (e : ℤ) : Option Scaled :=
  if 0 ≤ e then do
    let be ← expt2 e.toNat
    if f ≠ 2 ^ (type.digits - 1) then some ⟨f <<< (e.toNat + 1), 2, be, be⟩
    else do
      let mPlus ← expt2 (1 + e.toNat)
      some ⟨f <<< (e.toNat + 2), 4, mPlus, be⟩
  else if e = type.minE ∨ f ≠ 2 ^ (type.digits - 1) then some ⟨f * 2, 2 ^ (1 - e).toNat, 1, 1⟩
  else some ⟨f * 4, 2 ^ (2 - e).toNat, 2, 1⟩

def scale (st : Scaled) (est : ℤ) : Option Scaled :=
  if 0 ≤ est then (expt10 est.toNat).map fun power => { st with s := st.s * power }
  else (expt10 (-est).toNat).map fun power => ⟨st.r * power, st.s, st.mPlus * power,
    st.mMinus * power⟩

/-- The estimate is one too low where the upper end of the interval is not below the power of ten.
-/
def fixup (highOk : Bool) (st : Scaled) (k : ℤ) : Scaled × ℤ :=
  if (if highOk then st.s ≤ st.r + st.mPlus else st.s < st.r + st.mPlus) then
    ({ st with s := st.s * 10 }, k + 1)
  else (st, k)

/-- The loop, in a number of turns. -/
def generate (lowOk highOk : Bool) : ℕ → Scaled → Option (List ℕ)
  | 0, _ => none
  | fuel + 1, ⟨r, s, mPlus, mMinus⟩ =>
    let d := r * 10 / s
    let r := r * 10 % s
    let mPlus := mPlus * 10
    let mMinus := mMinus * 10
    let tc1 := decide (r < mMinus) || (lowOk && decide (r = mMinus))
    let tc2 := decide (s < r + mPlus) || (highOk && decide (r + mPlus = s))
    if tc1 || tc2 then
      some [if !tc1 && tc2 then d + 1 else if tc1 && !tc2 then d
        else if r * 2 < s then d else d + 1]
    else (generate lowOk highOk fuel ⟨r, s, mPlus, mMinus⟩).map (d :: ·)

/-- The exponent and the digits of `f * 2 ^ e`. -/
def freeFormat (f : ℕ) (e est : ℤ) : Option (ℤ × List ℕ) := do
  let ok := f % 2 == 0
  let st ← initialScaled type f e
  let st ← scale st est
  let (st, k) := fixup ok st est
  let digits ← generate ok ok (st.s.log2 + 1) st
  some (k, digits)

/-- `%flonum-to-digits` without a position. -/
def percentFlonumToDigits (bits : FloatBits type) (est : ℤ) : Option (ℤ × List ℕ) := do
  let (f, e) ← leftAligned type bits
  freeFormat type f e est

def digitCharacters : List Char := "0123456789".toList

def flonumToDigits (bits : FloatBits type) (est : ℤ) : Option (ℤ × List Char) :=
  if bits.toNat % 2 ^ (type.width - 1) = 0 then some (0, ['0'])
  else do
    let (k, digits) ← percentFlonumToDigits type bits est
    let string ← digits.mapM fun d => digitCharacters[d]?
    some (k, string)

/-! ## A position -/

/-- The distances may be fractions, and the interval has its ends or not. -/
structure PositionScaled where
  r : ℕ
  s : ℕ
  mPlus : ℚ
  mMinus : ℚ
  highOk : Bool
  lowOk : Bool
deriving DecidableEq

/-- The loop of `generate`. -/
def generateP : ℕ → PositionScaled → Option (List ℕ)
  | 0, _ => none
  | fuel + 1, ⟨r, s, mPlus, mMinus, highOk, lowOk⟩ =>
    let d := r * 10 / s
    let r := r * 10 % s
    let mPlus := mPlus * 10
    let mMinus := mMinus * 10
    let tc1 := decide ((r : ℚ) < mMinus) || (lowOk && decide ((r : ℚ) = mMinus))
    let tc2 := decide ((s : ℚ) < r + mPlus) || (highOk && decide ((r : ℚ) + mPlus = s))
    if tc1 || tc2 then
      some [if !tc1 && tc2 then d + 1 else if tc1 && !tc2 then d
        else if r * 2 < s then d else d + 1]
    else (generateP fuel ⟨r, s, mPlus, mMinus, highOk, lowOk⟩).map (d :: ·)

/-- The distances are at least a half of the unit of the position, and then their ends are in the
interval. -/
def widen (st : PositionScaled) (position : ℤ) : PositionScaled :=
  let x : ℚ := st.s * (10 : ℚ) ^ position / 2
  let low := max st.mMinus x
  let high := max st.mPlus x
  let st := if st.mMinus ≤ low then { st with mMinus := low, lowOk := true } else st
  if st.mPlus ≤ high then { st with mPlus := high, highOk := true } else st

/-- The first loop, from an exponent of zero up. -/
def scaleUp (highOk : Bool) (rm : ℚ) : ℕ → ℤ → ℕ → Option (ℤ × ℕ)
  | 0, _, _ => none
  | fuel + 1, k, s =>
    if (s : ℚ) < rm ∨ (highOk ∧ rm = s) then scaleUp highOk rm fuel (k + 1) (s * 10)
      else some (k, s)

/-- The second loop, down; not for a number that is rounded to zero. -/
def scaleDown : ℕ → ℤ → PositionScaled → Option (ℤ × PositionScaled)
  | 0, _, _ => none
  | fuel + 1, k, st =>
    let x : ℚ := (st.r + st.mPlus) * 10
    if st.mMinus < st.r ∧ (x < st.s ∨ (¬st.highOk ∧ x = st.s)) then
      scaleDown fuel (k - 1)
        { st with r := st.r * 10, mPlus := st.mPlus * 10, mMinus := st.mMinus * 10 }
    else some (k, st)

/-- `scale-p`, of an absolute position. -/
def scaleP (ok : Bool) (st : Scaled) (position : ℤ) : Option (ℤ × List ℕ) := do
  let st := widen ⟨st.r, st.s, st.mPlus, st.mMinus, ok, ok⟩ position
  let rm : ℚ := st.r + st.mPlus
  let (k, s) ← scaleUp st.highOk rm (⌈rm⌉₊.log2 + 2) 0 st.s
  let (k, st) ← scaleDown (s.log2 + 2) k { st with s := s }
  let digits ← generateP (st.s.log2 + 1) st
  some (k, digits)

/-- `%flonum-to-digits` with a position. -/
def percentFlonumToDigitsP (bits : FloatBits type) (position : ℤ) : Option (ℤ × List ℕ) := do
  let (f, e) ← leftAligned type bits
  let st ← initialScaled type f e
  scaleP (f % 2 == 0) st position

/-- `flonum-to-digits` with a position. -/
def flonumToDigitsP (bits : FloatBits type) (position : ℤ) : Option (ℤ × List Char) :=
  if bits.toNat % 2 ^ (type.width - 1) = 0 then some (0, ['0'])
  else do
    let (k, digits) ← percentFlonumToDigitsP type bits position
    let string ← digits.mapM fun d => digitCharacters[d]?
    some (k, string)

end Sbcl.Printer
