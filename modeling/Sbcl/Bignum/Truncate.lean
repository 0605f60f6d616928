import Sbcl.Bignum.Arithmetic

/-!
# Bignum division (code/bignum.lisp, code/numbers.lisp)

* `bignumTruncateGuess`, `tryBignumTruncateGuess`, `returnQuotientLeavingRemainder` : a digit of the
  quotient, its multiple of the divisor taken from the dividend, and the loop over the digits;
* `bignumTruncate` : the division of bignums, the divisor of two digits or more;
* `bignumTruncateSingleDigit` : the division by a divisor that fits in a word;
* `truncateIntegers` : which of them the generic function takes.
-/

namespace Sbcl.SbBignum

open Limbs Function

/-- `%multiply`: the high and the low digit. -/
def multiply (x y : Digit) : Digit × Digit := multiplyAndAdd x y 0 0

/-- `%bigfloor`: the quotient of two digits by one, which has to fit in a digit, and the remainder.
-/
def bigfloor (divHigh divLow divisor : Digit) : Digit × Digit :=
  (BitVec.ofNat digitSize ((divHigh.toNat * 2 ^ digitSize + divLow.toNat) / divisor.toNat),
    BitVec.ofNat digitSize ((divHigh.toNat * 2 ^ digitSize + divLow.toNat) % divisor.toNat))

def allocZeroing (fresh : Buffer) (length : ℕ) : Buffer :=
  fun i => if i < length then 0 else fresh i

/-- `bignum-replace` of the first digits. -/
def bignumReplace (dest src : Buffer) (count : ℕ) : Buffer :=
  fun i => if i < count then src i else dest i

/-- `shift-right-unaligned` from the first digit on, up to and with the last digit, which is filled
with its sign. -/
def shiftRightUnaligned (source : Buffer) (startPos resLen : ℕ) (res : Buffer) : Buffer :=
  let highBitsInFirstDigit := digitSize - startPos
  let res := dotimes (resLen - 1) res fun j res =>
    update res j (source j >>> startPos ||| source (j + 1) <<< highBitsInFirstDigit)
  update res (resLen - 1) (ashr (source (resLen - 1)) startPos)

/-- `bignum-ashift-left-unaligned` into a given buffer. -/
def bignumAshiftLeftUnaligned (bignum : Buffer) (digits nBits resLen : ℕ) (res : Buffer) : Buffer :=
  let remainingBits := digitSize - nBits
  let last := resLen - 1 - (digits + 1)
  let res := dotimes last res fun i res =>
    update res (digits + 1 + i) (bignum i >>> remainingBits ||| bignum (i + 1) <<< nBits)
  let res := update res digits (bignum 0 <<< nBits)
  let res := update res (resLen - 1) (ashr (bignum last) remainingBits)
  (normalizeBignumBuffer res resLen).1

/-- The loop of `bignum-compare` over the digits below `i`, from the highest on. -/
def compareDigits (a b : Buffer) : ℕ → ℤ
  | 0 => 0
  | i + 1 => if b i < a i then 1 else if a i < b i then -1 else compareDigits a b i

def bignumCompare (a b : Bignum) : ℤ :=
  let aPlusp := bignum0OrPlusp a.ref a.length
  let bPlusp := bignum0OrPlusp b.ref b.length
  if aPlusp ≠ bPlusp then if aPlusp then 1 else -1
  else if a.length = b.length then compareDigits a.ref b.ref a.length
  else if a.length > b.length then if aPlusp then 1 else -1
  else if aPlusp then -1 else 1

/-! ## The schoolbook division -/

def allOnesDigit : Digit := BitVec.allOnes digitSize

/-- The test of the guess loop: is `guess` times the two digits of `y` above the three of `x`? -/
def guessTooLarge (y1 y2 xI xI1 xI2 guess : Digit) : Bool :=
  let (highGuessY1, lowGuessY1) := multiply guess y1
  let (highGuessY2, lowGuessY2) := multiply guess y2
  let (middleDigit, borrow) := subtractWithBorrow xI1 lowGuessY1 true
  let highDigit := (subtractWithBorrow xI highGuessY1 borrow).1
  decide (highDigit = 0 ∧ (highGuessY2 > middleDigit ∨ middleDigit = highGuessY2 ∧
    lowGuessY2 > xI2))

theorem guess_pos {y1 y2 xI xI1 xI2 guess : Digit}
    (h : guessTooLarge y1 y2 xI xI1 xI2 guess = true) :
    (subtractWithBorrow guess 1 true).1.toNat < guess.toNat := by
  have hne : guess.toNat ≠ 0 := by
    intro h0
    have h2 : multiply guess y2 = (0, 0) := by simp [multiply, multiplyAndAdd, h0]
    simp [guessTooLarge, h2] at h
  have heq := subtractWithBorrow_eq guess 1 true
  generalize (subtractWithBorrow guess 1 true).2 = b at heq
  cases b <;> simp at * <;> omega

def guessLoop (y1 y2 xI xI1 xI2 guess : Digit) : Digit :=
  if guessTooLarge y1 y2 xI xI1 xI2 guess = true then
    guessLoop y1 y2 xI xI1 xI2 (subtractWithBorrow guess 1 true).1
  else guess
termination_by guess.toNat
decreasing_by exact guess_pos ‹_›

def bignumTruncateGuess (y1 y2 xI xI1 xI2 : Digit) : Digit :=
  guessLoop y1 y2 xI xI1 xI2 (if xI = y1 then allOnesDigit else (bigfloor xI xI1 y1).1)

/-- The digit of the quotient and the dividend after it. -/
def tryBignumTruncateGuess (truncateY : Buffer) (guess : Digit) (lenY lowXDigit : ℕ)
    (truncateX : Buffer) : Digit × Buffer :=
  let (truncateX, carryDigit, borrow) := dotimes lenY (truncateX, (0 : Digit), true)
    fun j (truncateX, carryDigit, borrow) =>
      let i := lowXDigit + j
      let (highDigit, lowDigit) := multiplyAndAdd guess (truncateY j) 0 carryDigit
      let (x, tempBorrow) := subtractWithBorrow (truncateX i) lowDigit borrow
      (update truncateX i x, highDigit, tempBorrow)
  let i := lowXDigit + lenY
  let truncateX := update truncateX i (subtractWithBorrow (truncateX i) carryDigit borrow).1
  if digit0OrPlusp (truncateX i) then (guess, truncateX)
  else
    -- The guess was one too large: one divisor is added back.
    let (truncateX, carry) := dotimes lenY (truncateX, false) fun j (truncateX, carry) =>
      let (v, k) := addWithCarry (truncateY j) (truncateX (lowXDigit + j)) carry
      (update truncateX (lowXDigit + j) v, k)
    ((subtractWithBorrow guess 1 true).1, update truncateX i (addWithCarry (truncateX i) 0 carry).1)

/-- The quotient, and the dividend with the remainder in it. -/
def returnQuotientLeavingRemainder (truncateY : Buffer) (lenX lenY : ℕ) (truncateX fresh : Buffer) :
    Buffer × Buffer :=
  let lenQ := lenX - lenY
  let y1 := truncateY (lenY - 1)
  let y2 := truncateY (lenY - 2)
  dotimes lenQ (update fresh lenQ 0, truncateX) fun r (q, truncateX) =>
    let k := lenQ - 1 - r
    let i := lenX - 1 - r
    let guess := bignumTruncateGuess y1 y2 (truncateX i) (truncateX (i - 1)) (truncateX (i - 2))
    let (digit, truncateX) := tryBignumTruncateGuess truncateY guess lenY k truncateX
    (update q k digit, truncateX)

def shiftYForTruncate (y : Bignum) : ℕ := digitSize - integerLength (y.ref (y.length - 1)).toNat - 1

/-- `(- n)` of a fixnum. -/
def negateFixnum (n : Fixnum) : LispInteger :=
  if h : n = mostNegativeFixnum then .bignum ⟨1,
    fun _ => BitVec.ofInt digitSize (mostPositiveFixnum + 1)⟩
  else .fixnum ⟨-n.val, by have := n.upper; omega, by
    have := n.lower
    have hne : n.val ≠ -2 ^ nPositiveFixnumBits := fun heq => h (Fixnum.ext heq)
    omega⟩

def LispInteger.negateInPlace : LispInteger → LispInteger
  | fixnum n => negateFixnum n
  | bignum b => bignum ⟨b.length, negateBignumBufferInPlace b.ref b.length⟩

def LispInteger.normalize : LispInteger → LispInteger
  | fixnum n => fixnum n
  | bignum b => normalizeBignum b.ref b.length

def zeroFixnum : Fixnum := ⟨0, by decide, by decide⟩

def bignumTruncate (fresh : ℕ → Buffer) (x y : Bignum) : LispInteger × LispInteger :=
  let xPlusp := bignumPlusP x
  let yPlusp := bignumPlusP y
  let x := if xPlusp then x else negateBignumNotFullyNormalized (fresh 0) x
  let y := if yPlusp then y else negateBignumNotFullyNormalized (fresh 1) y
  let lenX := x.length
  let lenY := y.length
  let (q, r) :=
    if bignumCompare y x > 0 then
      (LispInteger.fixnum zeroFixnum, LispInteger.bignum ⟨lenX, bignumReplace (fresh 2) x.ref lenX⟩)
    else
      let yShift := shiftYForTruncate y
      let truncateX := allocZeroing (fresh 2) (lenX + 1)
      let truncateY := allocZeroing (fresh 3) (lenY + 1)
      let (truncateX, truncateY) :=
        if yShift = 0 then (bignumReplace truncateX x.ref lenX, bignumReplace truncateY y.ref lenY)
        else (bignumAshiftLeftUnaligned x.ref 0 yShift (lenX + 1) truncateX,
          bignumAshiftLeftUnaligned y.ref 0 yShift (lenY + 1) truncateY)
      let (q, truncateX) :=
        returnQuotientLeavingRemainder truncateY (lenX + 1) lenY truncateX (fresh 4)
      let r :=
        if yShift = 0 then normalizeBignum (bignumReplace (fresh 5) truncateX lenY) lenY
        else normalizeBignum (shiftRightUnaligned truncateX yShift lenY (fresh 5)) lenY
      (.bignum ⟨lenX + 1 - lenY + 1, q⟩, r)
  let quotient := if xPlusp = yPlusp then q else q.negateInPlace
  let rem := if xPlusp then r else r.negateInPlace
  (quotient.normalize, rem.normalize)

/-- The quotient of magnitudes, as digits, and the remainder; nothing where it signals a division by
zero. -/
def truncateDigitsByWord (fresh x : Buffer) (lenX : ℕ) (y : Digit) : Option (Buffer × Digit) :=
  if y &&& (y - 1) = 0 then
    if y = 0 then none
    else if y = 1 then some (bignumReplace fresh x lenX, 0)
    else
      let nBits := integerLength y.toNat - 1
      some (shiftRightUnaligned x nBits lenX fresh, x 0 &&& (y - 1))
  else
    some (dotimes lenX (fresh, (0 : Digit)) fun k (q, r) =>
      let i := lenX - 1 - k
      let (qDigit, r) := bigfloor r (x i) y
      (update q i qDigit, r))

/-- An integer of two digits at most, as the language returns it. -/
def boxInteger (z : ℤ) : LispInteger :=
  normalizeBignum (fun i => BitVec.ofInt digitSize (ash z (-(digitSize * i)))) 2

/-- The divisor is a word or a signed word. -/
def bignumTruncateSingleDigit (fresh : ℕ → Buffer) (x : Bignum) (y : ℤ) :
    Option (LispInteger × LispInteger) := do
  let xPlusp := bignumPlusP x
  let x := if xPlusp then x else negateBignumNotFullyNormalized (fresh 0) x
  let yPlusp := decide (0 ≤ y)
  let y : Digit := BitVec.ofInt digitSize (if yPlusp then y else -y)
  let (q, r) ← truncateDigitsByWord (fresh 1) x.ref x.length y
  let quotient := if xPlusp = yPlusp then q else negateBignumBufferInPlace q x.length
  return (normalizeBignum quotient x.length, boxInteger (if xPlusp then r.toNat else -r.toNat))

def makeSmallBignum (n : Fixnum) : Bignum := ⟨1, fun _ => n.toWord⟩

/-- `single-digit-bignum-p`, where the machine divides two words by any word and where it does not.
-/
def singleDigitBignumP (fullWidth : Bool) (x : ℤ) : Bool :=
  if fullWidth then decide (-2 ^ (digitSize - 1) ≤ x ∧ x < 2 ^ digitSize)
  else decide (1 - 2 ^ (digitSize - 1) ≤ x ∧ x < 2 ^ (digitSize - 1))

/-- `truncate` of two integers, one of them a bignum at least. -/
def truncateIntegers (fullWidth : Bool) (fresh : ℕ → Buffer) (number divisor : LispInteger) :
    Option (LispInteger × LispInteger) :=
  match number, divisor with
  | .fixnum _, .fixnum _ => none
  | .fixnum n, .bignum d =>
    if singleDigitBignumP fullWidth d.toInt then bignumTruncateSingleDigit fresh
      (makeSmallBignum n) d.toInt
    else some (bignumTruncate fresh (makeSmallBignum n) d)
  | .bignum n, .fixnum d => bignumTruncateSingleDigit fresh n d.val
  | .bignum n, .bignum d =>
    if singleDigitBignumP fullWidth d.toInt then bignumTruncateSingleDigit fresh n d.toInt
    else some (bignumTruncate fresh n d)

end Sbcl.SbBignum
