import Sbcl.Bignum.Truncate
import Sbcl.Lib.Numeral

/-!
# Integers in a base (code/print.lisp)

* `iterativeAlgorithm` : the digits of a word, from the end of a buffer of 64 characters;
* `ldbBignumToFixnum`, `outputHexadecimal` : four bits at a time;
* `bignumTruncateSingleDigitTo`, `outputChunks` : divisions by the largest power of the base that is
  a word;
* `powersForBase`, `scrubPowerCache` : the powers `base ^ 2 ^ k` that are kept between calls;
* `bisect`, `outputHugeInteger` : division by these powers;
* `outputIntegerInBase` : the printer, which decides between them.

What is written to the stream is a list of characters. Nothing is returned where a store is outside
of its buffer, a vector is read outside of its elements, or the loop over powers does not end.
`fullWidth` is the machine whose division of two words takes any divisor (`single-digit-bignum-p`);
`fresh` is what a bignum holds that has been allocated.
-/

namespace Sbcl.Printer

open Sbcl.SbBignum Limbs

/-- `(integer 2 36)`. -/
structure Base where
  val : ℕ
  two_le : 2 ≤ val
  le_36 : val ≤ 36
deriving DecidableEq

theorem Base.one_lt (base : Base) : 1 < base.val := base.two_le

def chars : List Char := "0123456789ABCDEFGHIJKLMNOPQRSTUVWXYZ".toList

/-- `sb-vm:n-word-bits`, the size of the buffer. -/
abbrev nWordBits : ℕ := 64

/-- A character is stored before those that are in the buffer. -/
def pushChar (char : Char) (buffer : List Char) : Option (List Char) :=
  if buffer.length < nWordBits then some (char :: buffer) else none

def iterativeAlgorithm (base : Base) (integer : ℕ) (buffer : List Char) : Option (List Char) := do
  let q := integer / base.val
  let char ← chars[integer % base.val]?
  let buffer ← pushChar char buffer
  if q = 0 then some buffer else iterativeAlgorithm base q buffer
termination_by integer
decreasing_by exact Nat.div_lt_self (Nat.pos_of_ne_zero fun h0 => ‹¬integer / base.val =
  0› (by rw [h0, Nat.zero_div])) base.one_lt

/-- The bignum of an integer. -/
def bignumOf (n : ℤ) : Bignum :=
  ⟨integerLength n / digitSize + 1, fun i => BitVec.ofInt digitSize (ash n (-(digitSize * i)))⟩

/-- `ldb` of a machine word. -/
def ldbDigit (size pos : ℕ) (digit : Digit) : ℕ := digit.toNat / 2 ^ pos % 2 ^ size

/-- `ldb-bignum=>fixnum`. -/
def ldbBignumToFixnum (byteSize bytePos : ℕ) (bignum : Bignum) : ℕ :=
  let wordIndex := bytePos / digitSize
  let bitIndex := bytePos % digitSize
  let nDigits := bignum.length
  if nDigits ≤ wordIndex then ldbDigit byteSize 0 (signDigit bignum.ref nDigits)
  else if bitIndex + byteSize ≤ digitSize then ldbDigit byteSize bitIndex (bignum.ref wordIndex)
  else
    let lowPartSize := digitSize - bitIndex
    let highPartSize := byteSize - lowPartSize
    let high := if wordIndex + 1 < nDigits then bignum.ref (wordIndex + 1)
      else signDigit bignum.ref nDigits
    ldbDigit highPartSize 0 high <<< lowPartSize ||| ldbDigit lowPartSize bitIndex
      (bignum.ref wordIndex)

/-- The loop from the position `4 * (count - 1)` down to 0. -/
def outputHexadecimal (bignum : Bignum) : ℕ → Option (List Char)
  | 0 => some []
  | count + 1 => do
      let char ← chars[ldbBignumToFixnum 4 (4 * count) bignum]?
      let rest ← outputHexadecimal bignum count
      some (char :: rest)

variable (fullWidth : Bool)

/-- The largest divisor. -/
def chunkLimit : ℕ := 2 ^ (if fullWidth then nWordBits else nWordBits - 1) - 1

/-- The loop for the first exponent from `i` on whose power is above the limit. -/
def firstAbove (base : Base) (i : ℕ) : ℕ :=
  if chunkLimit fullWidth < base.val ^ i then i else firstAbove base (i + 1)
termination_by chunkLimit fullWidth + 1 - i
decreasing_by
  have hlt : i < base.val ^ i := Nat.lt_pow_self base.one_lt
  omega

/-- An element of `divisors`. -/
def divisors (base : Base) : ℕ := base.val ^ (firstAbove fullWidth base 2 - 1)

/-- An element of `zeros`. -/
def zeros (base : Base) : ℕ := firstAbove fullWidth base 1 - 1

/-- The quotient in the digits of `q`, the remainder, and the length without a leading zero that the
quotient has. A digit is read before it is stored, so that `x` may be `q`. -/
def bignumTruncateSingleDigitTo (x : Buffer) (y : Digit) (q : Buffer) (len : ℕ) :
    Buffer × Digit × ℕ :=
  let i := len - 1
  let (qDigit, rem) := (x i / y, x i % y)
  let resLen := if qDigit = 0 then len - 1 else len
  let (q, rem) := dotimes i (Function.update q i qDigit, rem) fun k (q, rem) =>
    let (qDigit, rem) := bigfloor rem (x (i - 1 - k)) y
    (Function.update q (i - 1 - k) qDigit, rem)
  (q, rem, resLen)

/-- The remainder's digits, with zeros up to the size of a chunk. -/
def outputRemainder (base : Base) (r : Digit) : Option (List Char) := do
  let buffer ← iterativeAlgorithm base r.toNat []
  if zeros fullWidth base ≤ nWordBits then some (List.replicate (zeros fullWidth base - buffer.length) '0' ++ buffer) else none

/-- `recurse`. The quotient that is left is in the buffer that is divided next. -/
def outputChunks (base : Base) : ℕ → Buffer → Buffer → ℕ → Option (List Char)
  | 0, _, _, _ => none
  | fuel + 1, n, q, len => do
      let (q, r, newLen) :=
        bignumTruncateSingleDigitTo n (BitVec.ofNat digitSize (divisors fullWidth base)) q len
      let upper ← if newLen = 1 then iterativeAlgorithm base (q 0).toNat []
        else outputChunks base fuel q q newLen
      let remainder ← outputRemainder fullWidth base r
      some (upper ++ remainder)

abbrev PowerCache := Vector (Option (List ℕ)) 37

def powerCacheIntegerLengthLimit : ℕ := 2048

def scrubPowerCache (cache : PowerCache) : PowerCache :=
  cache.map fun powers => powers.map fun powers =>
    match powers.findIdx? fun x : ℕ => powerCacheIntegerLengthLimit ≤ integerLength x with
    | none => powers
    | some tooBig => powers.take tooBig

/-- `compute-powers`, in a number of turns. -/
def computePowers (limit : ℕ) : ℕ → ℕ → Option (List ℕ)
  | 0, _ => none
  | fuel + 1, p => if limit < p then some [p] else (computePowers limit fuel (p * p)).map (p :: ·)

theorem Base.lt_37 (base : Base) : base.val < 37 := Nat.lt_succ_of_le base.le_36

/-- The vector of a base with more powers, from `start` on. -/
def extendPowers (base : Base) (limit : ℕ) (cache : PowerCache) (powers : List ℕ) (start : ℕ) :
    Option (List ℕ × PowerCache) :=
  (computePowers limit (limit + 1) start).map fun more =>
    (powers ++ more, cache.set base.val (some (powers ++ more)) base.lt_37)

/-- The powers, up to one that is above the limit, and the cache then. -/
def powersForBase (base : Base) (limit : ℕ) (cache : PowerCache) : Option (List ℕ × PowerCache) :=
  match cache.get ⟨base.val, base.lt_37⟩ with
  | none => extendPowers base limit cache [] base.val
  | some powers => do
      let max ← powers[powers.length - 1]?
      if limit < max then some (powers, cache) else extendPowers base limit cache powers (max * max)

def bisect (power : List ℕ) : ℕ → ℕ → Bool → Option (List Char)
  | k, 0, exactp => some (if exactp then List.replicate (2 ^ k) '0' else [])
  | 0, n + 1, _ => (chars[n + 1]?).map fun char => [char]
  | k + 1, n + 1, exactp => do
      let divisor ← power[k]?
      let (q, r) := ((n + 1) / divisor, (n + 1) % divisor)
      let upper ← bisect power k q exactp
      let lower ← bisect power k r (exactp || decide (0 < q))
      some (upper ++ lower)

def outputHugeIntegerInBase (n : ℕ) (base : Base) (cache : PowerCache) :
    Option (List Char × PowerCache) := do
  let (power, cache) ← powersForBase base n cache
  let kStart ← power.findIdx? fun x => n < x
  let written ← bisect power kStart n false
  some (written, cache)

/-- The magnitude. -/
def outputMagnitude (fresh : Buffer) (cache : PowerCache) (integer : ℕ) (base : Base) :
    Option (List Char × PowerCache) :=
  if integer < 2 ^ nWordBits then (iterativeAlgorithm base integer []).map fun written =>
    (written, cache)
  else if base.val = 16 then
    (outputHexadecimal (bignumOf integer) ((integerLength integer + 3) / 4)).map fun written =>
      (written, cache)
  else
    let bignum := bignumOf integer
    if bignum.length ≤ 32 then
      let len := if bignum.ref (bignum.length - 1) = 0 then bignum.length - 1 else bignum.length
      (outputChunks fullWidth base (nWordBits * len) bignum.ref fresh len).map fun written =>
        (written, cache)
    else outputHugeIntegerInBase integer base cache

def outputIntegerInBase (fresh : Buffer) (cache : PowerCache) (integer : ℤ) (base : Base) :
    Option (List Char × PowerCache) := do
  let (written, cache) ← outputMagnitude fullWidth fresh cache integer.natAbs base
  some ((if integer < 0 then '-' :: written else written), cache)

/-- What is done with the cache: an integer is printed, or it is scrubbed before a garbage
collection. -/
inductive CacheOp where
  | output (fresh : Buffer) (integer : ℤ) (base : Base)
  | scrub

def CacheOp.run (cache : PowerCache) : CacheOp → Option PowerCache
  | .output fresh integer base =>
  (outputIntegerInBase fullWidth fresh cache integer base).map Prod.snd
  | .scrub => some (scrubPowerCache cache)

/-- The cache of a new image. -/
def initialPowerCache : PowerCache := Vector.replicate 37 none

end Sbcl.Printer
