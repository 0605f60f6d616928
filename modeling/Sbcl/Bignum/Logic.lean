import Sbcl.Bignum.Truncate

/-!
# Bignum shifts and logical operations (code/bignum.lisp)

* `bignumAshiftRight`, `bignumAshiftLeft` : shifts by whole digits and by bits;
* `bignumLogicalNot`, `bignumLogicalAnd`, `bignumLogicalIor`, `bignumLogicalXor` : by which operand
  is shorter and its sign;
* `ldbBignumToFixnum` : `ldb-bignum=>fixnum`.

`bignum-compare` is with the division, which uses it. An error is `none`. `twoWords` is whether the
backend has `ash-right-two-words`, as arm64 has and x86-64 has not.
-/

namespace Sbcl.SbBignum

open Limbs Function

def maximumBignumLength : ℕ := 0xFFFFFFFF

def allocZeroingBelow (fresh : Buffer) (limit : ℕ) : Buffer :=
  fun i => if i < limit then 0 else fresh i

/-- `mask-signed-field` of a digit, as an integer. -/
def signedDigit (digit : Digit) : LispInteger := normalizeBignum (fun _ => digit) 1

def bignumBufferIntegerLength (bignum : Buffer) (len : ℕ) : ℕ :=
  integerLength (bignum (len - 1)).toInt + (len - 1) * digitSize

/-- `(logand most-positive-word (ash (dpb word2 (byte 64 64) word1) (- count)))`. -/
def ashRightTwoWords (word2 word1 : Digit) (count : ℕ) : Digit :=
  (word2 ++ word1).extractLsb' count digitSize

/-- `ash-into-word-mod` to the right. -/
def ashIntoWordMod (x : Bignum) (count : ℕ) : Digit :=
  let words := count / digitSize
  let bits := count % digitSize
  ashRightTwoWords (bignumDigit x (words + 1)) (bignumDigit x words) bits

def bignumAshiftRightDigits (fresh : Buffer) (bignum : Bignum) (digits : ℕ) : LispInteger :=
  let resLen := bignum.length - digits
  normalizeBignum (bignumReplace fresh (window bignum.ref digits) resLen) resLen

def bignumAshiftRight (twoWords : Bool) (fresh : Buffer) (bignum : Bignum) (count : ℕ) :
    Option LispInteger :=
  let bignumLen := bignum.length
  if count < 2 ^ nPositiveFixnumBits then
    let digits := count / digitSize
    let nBits := count % digitSize
    if digits ≥ bignumLen then some (signedDigit (signDigit bignum.ref bignumLen))
    else if twoWords ∧ bignumLen - digits ≤ 2 ∧
        (bignumBufferIntegerLength bignum.ref bignumLen : ℤ) - count ≤ digitSize - 1 then
      some (signedDigit (ashIntoWordMod bignum count))
    else if nBits = 0 then some (bignumAshiftRightDigits fresh bignum digits)
    else
      let resLen := bignumLen - digits
      some (normalizeBignum
        (shiftRightUnaligned (window bignum.ref digits) nBits resLen fresh) resLen)
  else if count > bignumLen then some (signedDigit (signDigit bignum.ref bignumLen))
  else none

def bignumAshiftLeftDigits (fresh : Buffer) (bignum : Bignum) (digits : ℕ) : Bignum :=
  let resLen := bignum.length + digits
  let res := allocZeroingBelow fresh digits
  ⟨resLen, fun i => if digits ≤ i ∧ i < resLen then bignum.ref (i - digits) else res i⟩

/-- The digits that `bignum-ashift-left-unaligned` stores in a new bignum. -/
def ashiftLeftUnalignedDigits (bignum : Buffer) (digits nBits resLen : ℕ) (res : Buffer) : Buffer :=
  let remainingBits := digitSize - nBits
  let last := resLen - 1 - (digits + 1)
  let res := dotimes last res fun i res =>
    update res (digits + 1 + i) (bignum i >>> remainingBits ||| bignum (i + 1) <<< nBits)
  let res := update res digits (bignum 0 <<< nBits)
  update res (resLen - 1) (ashr (bignum last) remainingBits)

def bignumAshiftLeft (fresh : Buffer) (bignum : Bignum) (x : ℕ) : Option LispInteger :=
  if x < 2 ^ nPositiveFixnumBits then
    let digits := x / digitSize
    let nBits := x % digitSize
    let bignumLen := bignum.length
    let resLen := digits + bignumLen + 1
    if resLen > maximumBignumLength then none
    else if nBits = 0 then some (.bignum (bignumAshiftLeftDigits fresh bignum digits))
    else some (normalizeBignum (ashiftLeftUnalignedDigits bignum.ref digits nBits resLen
      (allocZeroingBelow fresh digits)) resLen)
  else none

/-! ## Logical operations -/

/-- A loop that stores `f` of the digits of two bignums below `len`. -/
def logicalLoop (f : Digit → Digit → Digit) (a b : Buffer) (len : ℕ) (res : Buffer) : Buffer :=
  dotimes len res fun i res => update res i (f (a i) (b i))

/-- A loop that stores digits from `lenA` up to `lenB`. -/
def restLoop (digit : ℕ → Digit) (lenA lenB : ℕ) (res : Buffer) : Buffer :=
  dotimes (lenB - lenA) res fun j res => update res (lenA + j) (digit (lenA + j))

def bignumLogicalNot (fresh : Buffer) (a : Bignum) : Bignum :=
  ⟨a.length, dotimes a.length fresh fun i res => update res i (lognotDigit (a.ref i))⟩

def logandShorterPositive (a : Buffer) (lenA : ℕ) (b res : Buffer) : LispInteger :=
  normalizeBignum (logicalLoop (· &&& ·) a b lenA res) lenA

def logandShorterNegative (a : Buffer) (lenA : ℕ) (b : Buffer) (lenB : ℕ)
    (res : Buffer) : LispInteger :=
  normalizeBignum (restLoop b lenA lenB (logicalLoop (· &&& ·) a b lenA res)) lenB

def bignumLogicalAnd (fresh : Buffer) (a b : Bignum) : LispInteger :=
  let aPlusp := bignum0OrPlusp a.ref a.length
  let bPlusp := bignum0OrPlusp b.ref b.length
  if a.length < b.length then
    if aPlusp then logandShorterPositive a.ref a.length b.ref fresh
    else logandShorterNegative a.ref a.length b.ref b.length fresh
  else if b.length < a.length then
    if bPlusp then logandShorterPositive b.ref b.length a.ref fresh
    else logandShorterNegative b.ref b.length a.ref a.length fresh
  else logandShorterPositive a.ref a.length b.ref fresh

def logiorShorterPositive (a : Buffer) (lenA : ℕ) (b : Buffer) (lenB : ℕ)
    (res : Buffer) : LispInteger :=
  normalizeBignum (restLoop b lenA lenB (logicalLoop (· ||| ·) a b lenA res)) lenB

def logiorShorterNegative (a : Buffer) (lenA : ℕ) (b : Buffer) (lenB : ℕ)
    (res : Buffer) : LispInteger :=
  let sign := signDigit a lenA
  normalizeBignum (restLoop (fun _ => sign) lenA lenB (logicalLoop (· ||| ·) a b lenA res)) lenB

def bignumLogicalIor (fresh : Buffer) (a b : Bignum) : LispInteger :=
  let aPlusp := bignum0OrPlusp a.ref a.length
  let bPlusp := bignum0OrPlusp b.ref b.length
  if a.length < b.length then
    if aPlusp then logiorShorterPositive a.ref a.length b.ref b.length fresh
    else logiorShorterNegative a.ref a.length b.ref b.length fresh
  else if b.length < a.length then
    if bPlusp then logiorShorterPositive b.ref b.length a.ref a.length fresh
    else logiorShorterNegative b.ref b.length a.ref a.length fresh
  else logiorShorterPositive a.ref a.length b.ref b.length fresh

def bignumLogicalXorAux (a : Buffer) (lenA : ℕ) (b : Buffer) (lenB : ℕ)
    (res : Buffer) : LispInteger :=
  let sign := signDigit a lenA
  normalizeBignum
    (restLoop (fun i => sign ^^^ b i) lenA lenB (logicalLoop (· ^^^ ·) a b lenA res)) lenB

def bignumLogicalXor (fresh : Buffer) (a b : Bignum) : LispInteger :=
  if a.length < b.length then bignumLogicalXorAux a.ref a.length b.ref b.length fresh
  else bignumLogicalXorAux b.ref b.length a.ref a.length fresh

/-- `(ldb (byte size position) digit)`. -/
def ldbDigit (size position : ℕ) (digit : Digit) : ℤ := ldb size position digit.toNat

def ldbBignumToFixnum (byteSize bytePos : ℕ) (bignum : Bignum) : ℤ :=
  let wordIndex := bytePos / digitSize
  let bitIndex := bytePos % digitSize
  let nDigits := bignum.length
  if wordIndex ≥ nDigits then ldbDigit byteSize 0 (signDigit bignum.ref nDigits)
  else if bitIndex + byteSize ≤ digitSize then ldbDigit byteSize bitIndex (bignum.ref wordIndex)
  else
    let lowPartSize := digitSize - bitIndex
    let highPartSize := byteSize - lowPartSize
    let high := if wordIndex + 1 < nDigits then bignum.ref (wordIndex + 1)
      else signDigit bignum.ref nDigits
    logior (ash (ldbDigit highPartSize 0 high) lowPartSize)
      (ash (bignum.ref wordIndex).toNat (-bitIndex))

end Sbcl.SbBignum
