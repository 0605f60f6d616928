import Sbcl.Integer
import Sbcl.Lib.Limbs
import Sbcl.Object

/-!
# Bignums (code/bignum.lisp)

* `Bignum`, `LispInteger` : a vector of digits with its length, and the integers of the language;
* `normalizeBignum` : the digits that are only sign are dropped, and a fixnum is returned where
  there is one;
* `addBignums`, `subtractBignum`, `multiplyBignums`, `negateBignum` and their forms with a fixnum
  operand.

A new bignum holds what was in memory before: the functions take `fresh`, the words of the bignums
that they allocate, in the order of the allocations. The length of a bignum is not bounded here.
-/

namespace Sbcl.SbBignum

open Limbs Function

abbrev digitSize : ℕ := 64

/-- `bignum-element-type`. -/
abbrev Digit := Word

abbrev Buffer := Limbs.Buffer digitSize

structure Bignum where
  length : ℕ
  ref : Buffer

inductive LispInteger where
  | fixnum (n : Fixnum)
  | bignum (b : Bignum)

/-- The number that the digits are, in two's complement. -/
def Bignum.toInt (b : Bignum) : ℤ := sval b.ref b.length

def ashr (digit : Digit) (count : ℕ) : Digit := digit.sshiftRight count

/-- `%lognot`. -/
def lognotDigit (digit : Digit) : Digit := ~~~digit

def digit0OrPlusp (digit : Digit) : Bool := !digit.msb

def bignum0OrPlusp (ref : Buffer) (len : ℕ) : Bool := digit0OrPlusp (ref (len - 1))

def bignumPlusP (b : Bignum) : Bool := bignum0OrPlusp b.ref b.length

def signDigit (ref : Buffer) (len : ℕ) : Digit := ashr (ref (len - 1)) (digitSize - 1)

/-- `(ash n (- 1 digit-size))`, as a digit. -/
def fixnumSignDigit (n : Fixnum) : Digit := BitVec.ofInt digitSize (ash n.val (1 - digitSize))

def normalizeBignumBuffer (result : Buffer) : ℕ → Buffer × ℕ
  | 0 => (result, 0)
  | 1 => (result, 1)
  | len + 2 =>
    if result (len + 1) = ashr (result len) (digitSize - 1) then
      normalizeBignumBuffer (update result (len + 1) 0) (len + 1)
    else (result, len + 2)

theorem fixnum_of_ashr {digit : Digit}
    (h : ashr digit nPositiveFixnumBits = ashr digit (digitSize - 1)) :
    -2 ^ nPositiveFixnumBits ≤ digit.toInt ∧ digit.toInt < 2 ^ nPositiveFixnumBits := by
  have hi := congrArg BitVec.toInt h
  simp only [ashr, BitVec.toInt_sshiftRight, Int.shiftRight_eq_div_pow] at hi
  simp only [nPositiveFixnumBits, digitSize] at *
  omega

def normalizeBignum (result : Buffer) (len : ℕ) : LispInteger :=
  let (result, newlen) := normalizeBignumBuffer result len
  if newlen = 1 then
    if h : ashr (result 0) nPositiveFixnumBits = ashr (result 0) (digitSize - 1) then
      .fixnum ⟨(result 0).toInt, (fixnum_of_ashr h).1, (fixnum_of_ashr h).2⟩
    else .bignum ⟨newlen, result⟩
  else .bignum ⟨newlen, result⟩

def addBignums (fresh : ℕ → Buffer) (a b : Bignum) : LispInteger :=
  let (a, b) := if a.length > b.length then (a, b) else (b, a)
  let (res, carry) := dotimes b.length (fresh 0, false) fun i (res, carry) =>
    let (v, k) := addWithCarry (a.ref i) (b.ref i) carry
    (update res i v, k)
  let signDigitB := signDigit b.ref b.length
  let (res, carry) := dotimes (a.length - b.length) (res, carry) fun j (res, carry) =>
    let i := b.length + j
    let (v, k) := addWithCarry (a.ref i) signDigitB carry
    (update res i v, k)
  let res := update res a.length (addWithCarry (signDigit a.ref a.length) signDigitB carry).1
  normalizeBignum res (a.length + 1)

def addBignumFixnum (fresh : ℕ → Buffer) (a : Bignum) (b : Fixnum) : LispInteger :=
  let (v, carry) := addWithCarry (a.ref 0) b.toWord false
  let signDigitB := fixnumSignDigit b
  let (res, carry) := dotimes (a.length - 1) (update (fresh 0) 0 v, carry) fun j (res, carry) =>
    let i := 1 + j
    let (v, k) := addWithCarry (a.ref i) signDigitB carry
    (update res i v, k)
  let res := update res a.length (addWithCarry (signDigit a.ref a.length) signDigitB carry).1
  normalizeBignum res (a.length + 1)

/-- The loop of `subtract-bignum-loop`, for the digits that it takes from its operands. -/
def subtractBignumLoop (aDigit bDigit : ℕ → Digit) (res : Buffer) (lenRes : ℕ) : Buffer :=
  (dotimes lenRes (res, true) fun i (res, borrow) =>
    let (v, k) := subtractWithBorrow (aDigit i) (bDigit i) borrow
    (update res i v, k)).1

/-- The digits of a bignum and then its sign. -/
def bignumDigit (a : Bignum) (i : ℕ) : Digit :=
  if i < a.length then a.ref i else signDigit a.ref a.length

/-- The digit of a fixnum and then its sign. -/
def fixnumDigit (b : Fixnum) (i : ℕ) : Digit := if i < 1 then b.toWord else fixnumSignDigit b

def subtractBignum (fresh : ℕ → Buffer) (a b : Bignum) : LispInteger :=
  let lenRes := max a.length b.length + 1
  normalizeBignum (subtractBignumLoop (bignumDigit a) (bignumDigit b) (fresh 0) lenRes) lenRes

def subtractBignumFixnum (fresh : ℕ → Buffer) (a : Bignum) (b : Fixnum) : LispInteger :=
  let lenRes := a.length + 1
  normalizeBignum (subtractBignumLoop (bignumDigit a) (fixnumDigit b) (fresh 0) lenRes) lenRes

def subtractFixnumBignum (fresh : ℕ → Buffer) (a : Fixnum) (b : Bignum) : LispInteger :=
  let lenRes := b.length + 1
  normalizeBignum (subtractBignumLoop (fixnumDigit a) (bignumDigit b) (fresh 0) lenRes) lenRes

def mostPositiveFixnum : ℤ := 2 ^ nPositiveFixnumBits - 1

def mostNegativeFixnum : Fixnum := ⟨-2 ^ nPositiveFixnumBits, le_rfl, by decide⟩

/-- The loop of `negate-bignum`: the digits, and the last two of them. -/
def bignumNegateLoop (x : Buffer) (lenX : ℕ) (res : Buffer) : Buffer × Digit × Digit :=
  let (res, _, last1, last2) :=
    dotimes lenX (res, true, (0 : Digit), (0 : Digit)) fun i (res, carry, _, last2) =>
    let (v, k) := addWithCarry (lognotDigit (x i)) 0 carry
    (update res i v, k, last2, v)
  (res, last1, last2)

/-- `negate-bignum-not-fully-normalized`: a bignum without extraneous digits. -/
def negateBignumNotFullyNormalized (fresh : Buffer) (x : Bignum) : Bignum :=
  let msd := x.ref (x.length - 1)
  let lenRes := if msd = (1 : Digit) <<< (digitSize - 1) then x.length + 1 else x.length
  let (res, last1, last2) := bignumNegateLoop x.ref x.length fresh
  let (res, last1, last2) :=
    if lenRes ≠ x.length then (update res x.length 0, last2, 0) else (res, last1, last2)
  if last2 = ashr last1 (digitSize - 1) then ⟨lenRes - 1, update res (lenRes - 1) 0⟩
    else ⟨lenRes, res⟩

def negateBignum (fresh : ℕ → Buffer) (x : Bignum) : LispInteger :=
  if x.length = 1 ∧ x.ref 0 = BitVec.ofInt digitSize (mostPositiveFixnum + 1) then
    .fixnum mostNegativeFixnum
  else .bignum (negateBignumNotFullyNormalized (fresh 0) x)

def negateBignumBufferInPlace (bignum : Buffer) (bignumLen : ℕ) : Buffer :=
  let (value, carry) := addWithCarry (lognotDigit (bignum 0)) 1 false
  (dotimes (bignumLen - 1) (update bignum 0 value, carry) fun j (bignum, carry) =>
    let i := 1 + j
    let (value, temp) := addWithCarry (lognotDigit (bignum i)) 0 carry
    (update bignum i value, temp)).1

/-- The digits of `x` times the first `lenB` of `b`, which are stored from the lowest on. -/
def multiplyFirst (x : Digit) (b : Buffer) (lenB : ℕ) (res : Buffer) : Buffer :=
  let (res, carryDigit) := dotimes lenB (res, (0 : Digit)) fun index (res, carryDigit) =>
    let (high, low) := multiplyAndAdd (b index) x 0 carryDigit
    (update res index low, high)
  update res lenB carryDigit

/-- The digits of `x` times the first `lenB` of `b`, which are added from the `i`-th on. -/
def multiplyNext (x : Digit) (b : Buffer) (lenB i : ℕ) (res : Buffer) : Buffer :=
  let (res, carryDigit) := dotimes lenB (res, (0 : Digit)) fun j (res, carryDigit) =>
    let k := i + j
    let (high, low) := multiplyAndAdd x (b j) (res k) carryDigit
    (update res k low, high)
  update res (i + lenB) carryDigit

def multiplyBignums (fresh : ℕ → Buffer) (a b : Bignum) : LispInteger :=
  let aPlusp := bignumPlusP a
  let bPlusp := bignumPlusP b
  let a := if aPlusp then a else negateBignumNotFullyNormalized (fresh 0) a
  let b := if bPlusp then b else negateBignumNotFullyNormalized (fresh 1) b
  let lenRes := a.length + b.length
  let negateRes := aPlusp ≠ bPlusp
  let (a, b) := if a.length > b.length then (b, a) else (a, b)
  let res := multiplyFirst (a.ref 0) b.ref b.length (fresh 2)
  let res := dotimes (a.length - 1) res fun j res =>
    multiplyNext (a.ref (1 + j)) b.ref b.length (1 + j) res
  let res := if negateRes then negateBignumBufferInPlace res lenRes else res
  normalizeBignum res lenRes

def multiplyBignumAndFixnum (fresh : ℕ → Buffer) (bignum : Bignum)
    (fixnum : Fixnum) : LispInteger :=
  let bignumPlusp := bignumPlusP bignum
  let fixnumPlusp := decide (0 ≤ fixnum.val)
  let bignum := if bignumPlusp then bignum else negateBignumNotFullyNormalized (fresh 0) bignum
  let digit : Digit := BitVec.ofInt digitSize (if fixnumPlusp then fixnum.val else -fixnum.val)
  let res := multiplyFirst digit bignum.ref bignum.length (fresh 1)
  let res := if bignumPlusp ≠ fixnumPlusp then negateBignumBufferInPlace res
    (bignum.length + 1) else res
  normalizeBignum res (bignum.length + 1)

end Sbcl.SbBignum
