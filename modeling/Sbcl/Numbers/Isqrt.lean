import Sbcl.Numbers.Rational

/-!
# Integer square roots (code/numbers.lisp, code/bignum.lisp)

* `approximateIsqrt` : a root of 64 bits, from a table of its first octet and two divisions;
* `wordSizedSqrt` : the root of a fixnum or of a word; `bignumIsqrt` : that of a larger number, by
  `isqrtLoop`;
* `isqrt` : the dispatch.

Nothing is returned where a value is not of the type that the code declares it of, where a digit is
read behind the end of a bignum, where a division by zero is signalled, or where the argument is
negative. The length of a bignum is not bounded here.
-/

namespace Sbcl.Numbers

open SbBignum Rational

/-- `(truly-the type n)`. -/
def trulyThe (type : ℤ → Bool) (n : ℤ) : Option ℤ := if type n then some n else none

/-- `word`, which is `(unsigned-byte 64)`. -/
def wordp (n : ℤ) : Bool := decide (0 ≤ n ∧ n < 2 ^ 64)

/-- `(integer low high)`. -/
def integerp (low high n : ℤ) : Bool := decide (low ≤ n ∧ n ≤ high)

def bignumRef (bignum : Bignum) (i : ℕ) : Option ℤ :=
  if i < bignum.length then some (bignum.ref i).toNat else none

/-- `last-bignum-part=>word`. -/
def lastBignumPartWord (byteSizeLeft bytePos : ℤ) (bignum : Bignum) : Option ℤ := do
  let byteSizeLeft ← trulyThe (integerp 0 64) byteSizeLeft
  let bytePos ← if 0 ≤ bytePos then some bytePos else none
  let wordIndex := bytePos / digitSize
  let bitIndex := bytePos % digitSize
  let one ← bignumRef bignum wordIndex.toNat
  if bitIndex ≤ byteSizeLeft then trulyThe wordp (ash one (-bitIndex))
  else
    let count ← trulyThe (integerp 0 (digitSize - 1)) (digitSize - bitIndex)
    let part ← trulyThe wordp (ash (← bignumRef bignum (wordIndex.toNat + 1)) count)
    trulyThe wordp (logior part (ash one (-bitIndex)))

/-- `(round (sqrt m))`. A single-float root of a number of the table is on the same side of every
half as the root. -/
def roundSqrt (m : ℕ) : ℕ := (Nat.sqrt (4 * m) + 1) / 2

/-- The vector of octets in `approximate-isqrt`. -/
def isqrtTable : List ℕ := (List.range' 64 192).map fun i => min (roundSqrt (i * 256 + 128)) 255

def approximateIsqrt (n : ℤ) : Option ℤ := do
  let index ← trulyThe (fun i => decide (0 ≤ i)) (ash n (-56) - 64)
  let u ← isqrtTable[index.toNat]?
  let u := ash u 7 + (← truncate1 (ash n (-41)) u)
  some (ash u 15 + (← truncate1 (ash n (-17)) u))

def wordSizedSqrt (type : ℤ → Bool) (n : ℤ) : Option ℤ := do
  let c := truncate (integerLength n - 1) 2
  let shift := 31 - c
  let approximate ← trulyThe type
    (ash (← approximateIsqrt (← trulyThe wordp (ash n (shift * 2)))) (-shift))
  if (← trulyThe type (approximate * approximate)) > n then some (approximate - 1)
    else some approximate

/-- The loop in `isqrt`, with `s` from one less than the count down to zero, after the digits in
`e`. -/
def isqrtLoop (n c : ℤ) : ℕ → ℤ → ℤ → Option ℤ
  | 0, _, a => some a
  | s + 1, e, a => do
      let d := ash c (-s)
      let shiftAmount := 2 * c + 1 - d - e
      let nShifted := ash n (-shiftAmount)
      let q ← truncate1 nShifted a
      isqrtLoop n c s d (ash a (d - 1 - e) + q)

/-- `isqrt` of a bignum that is not a word. -/
def bignumIsqrt (bignum : Bignum) : Option ℤ := do
  let n := bignum.toInt
  let bitLength : ℤ := integerLength n
  let c := (bitLength - 1) / 2
  let cBitLength := integerLength c
  let d := ash c (5 - cBitLength)
  let m ← lastBignumPartWord (logand bitLength 1) (2 * c - 62) bignum
  let a := ash (← approximateIsqrt m) (← trulyThe (fun i => decide (i ≤ 0)) (d - 31))
  let a ← isqrtLoop n c (cBitLength - 5) d a
  if n < a * a then some (a - 1) else some a

def isqrt : LispInteger → Option ℤ
  | .fixnum n => if n.val < 0 then none else if n.val = 0 then some 0
  else wordSizedSqrt fixnump n.val
  | .bignum n => if n.toInt < 0 then none else if wordp n.toInt then wordSizedSqrt wordp n.toInt
    else bignumIsqrt n

end Sbcl.Numbers
