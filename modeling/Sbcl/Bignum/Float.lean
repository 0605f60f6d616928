import Sbcl.Bignum.Logic
import Sbcl.Printer.Flonum

/-!
# Conversion of a bignum to a float (code/bignum.lisp)

* `bignumLowerBitsZeroP` : whether the bits below a place are zero;
* `lastBignumPart` : the upper end of a bignum, as a fixnum;
* `bignumNegateLastTwo` : the last two digits of the negation;
* `bignumToFloat` : `bignum-to-double-float` and `bignum-to-single-float`.
-/

namespace Sbcl.SbBignum

open Limbs Function Printer

/-- `sb-c::mask-signed-field`, of a size that is not zero. -/
def maskSignedField (size : ℕ) (n : ℤ) : ℤ := n.bmod (2 ^ size)

def bignumLowerBitsZeroP (bignum : Bignum) (nBits length : ℕ) : Bool :=
  let nFullDigits := nBits / digitSize
  let nBitsPartialDigit := nBits % digitSize
  if length > nFullDigits then
    (List.range nFullDigits).all (fun index => bignum.ref index == 0) &&
      decide (logand (ash 1 nBitsPartialDigit - 1) (bignum.ref nFullDigits).toNat = 0)
  else false

/-- `last-bignum-part=>fixnum`. -/
def lastBignumPart (byteSizeLeft bytePos : ℕ) (bignum : Bignum) : ℤ :=
  let wordIndex := bytePos / digitSize
  let bitIndex := bytePos % digitSize
  let one := bignum.ref wordIndex
  if bitIndex ≤ byteSizeLeft then ash one.toInt (-bitIndex)
  else
    maskSignedField (nPositiveFixnumBits + 1)
      (logior (ash (bignum.ref (wordIndex + 1)).toNat (digitSize - bitIndex : ℕ))
        (ash one.toNat (-bitIndex)))

def bignumNegateLastTwo (bignum : Buffer) (len : ℕ) : Digit × Digit :=
  let (last1, last2, _) := dotimes len ((0 : Digit), (0 : Digit), true) fun i (_, last2, carry) =>
    let (v, k) := addWithCarry (lognotDigit (bignum i)) 0 carry
    (last2, v, k)
  (last1, last2)

/-- The bits of a float, or an overflow with a sign. -/
inductive FloatResult (type : FloatType) where
  | overflow (sign : ℤ)
  | float (bits : FloatBits type)

/-- The end of both branches: `none` where the exponent overflows, before or after the rounding. -/
def roundBits (type : FloatType) (length : ℕ) (shifted signif : ℤ)
    (lowerBitsZero : Bool) : Option ℤ :=
  let exp := type.bias + length
  if exp > type.normalExponentMax then none
  else
    let bits := ash exp type.exponentByte.2
    let signif :=
      if logtest shifted 1 && (logtest signif 1 || !lowerBitsZero) then signif + 1 else signif
    let bits := bits + signif
    if bits = type.infinity then none else some bits

/-- `bignum-to-double-float`, `bignum-to-single-float`. -/
def bignumToFloat (type : FloatType) (bignum : Bignum) : FloatResult type :=
  let bignumLength := bignum.length
  if bignum0OrPlusp bignum.ref bignumLength then
    let length := bignumBufferIntegerLength bignum.ref bignumLength
    let shift := length - type.digits - 1
    let shifted := lastBignumPart (digitSize - type.digits) shift bignum
    let signif := ldb type.significandByte.1 1 shifted
    match roundBits type length shifted signif (bignumLowerBitsZeroP bignum shift bignumLength) with
    | none => .overflow 1
    | some bits => .float (BitVec.ofInt _ bits)
  else
    let (last1, last2) := bignumNegateLastTwo bignum.ref bignumLength
    let last2Length := integerLength last2.toNat
    let length := last2Length + (bignumLength - 1) * digitSize
    let shift := length - type.digits - 1
    let bitIndex := shift % digitSize
    let shifted : ℤ :=
      if last2 = 0 then ash last1.toNat (-bitIndex)
      else if bitIndex ≤ digitSize - (type.digits + 1) then ash last2.toNat (-bitIndex)
      else logand (2 ^ digitSize - 1) (logior (ash last2.toNat (digitSize - bitIndex : ℕ))
        (ash last1.toNat (-bitIndex)))
    let signif := ldb type.significandByte.1 type.significandByte.2 (ash shifted (-1))
    match roundBits type length shifted signif (bignumLowerBitsZeroP bignum shift bignumLength) with
    | none => .overflow (-1)
    | some bits => .float (BitVec.ofInt _ (logior (ash (-1) (type.width - 1 : ℕ)) bits))

end Sbcl.SbBignum
