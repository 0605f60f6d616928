import Sbcl.Numbers.CompareCorrect
import Sbcl.Numbers.Psxhash

/-!
# A float that is an integer has the hash code of the integer

* `digit_eq`, `length_eq` : the digits of a bignum that is a multiple of a power of the radix;
* `sxhashBignumFloat_eq` : the float outside the range of fixnums;
* `psxhash_integer_float` : every float that is an integer.
-/

namespace Sbcl.Numbers

open SbBignum Limbs Printer BinaryFloat Nat Int

variable {type : FloatType}

theorem digit_eq {a : Bignum} {i : ℕ} (hi : i < a.length) :
    ((a.ref i).toNat : ℤ) = a.toInt / 2 ^ (digitSize * i) % 2 ^ digitSize := by
  obtain ⟨c, hc⟩ := word_window a i
  have hlt : ((a.ref i).toNat : ℤ) < 2 ^ digitSize := by exact_mod_cast (a.ref i).isLt
  rw [hc, extDigit_of_lt hi, Nat.mul_comm 2, pow_mul, pow_two]
  have hsplit : ((a.ref i).toNat : ℤ) + (extDigit a (i + 1)).toNat * 2 ^ digitSize + c *
    (2 ^ digitSize * 2 ^ digitSize) =
      (a.ref i).toNat + 2 ^ digitSize * ((extDigit a (i + 1)).toNat + c * 2 ^ digitSize) := by ring
  rw [hsplit, add_mul_emod_self_left, emod_eq_of_lt (natCast_nonneg _) hlt]

theorem fits_mul_radix {m : ℤ} {d k : ℕ} : Fits digitSize (d + k) (m * 2 ^ (digitSize * d)) ↔
    Fits digitSize k m := by
  have hpow : (0 : ℤ) < 2 ^ (digitSize * d) := by positivity
  have hneg : -(2 : ℤ) ^ (digitSize * (d + k)) = -2 ^ (digitSize * k) * 2 ^ (digitSize * d) := by
    rw [Nat.mul_add, pow_add]
    ring
  have htwo : 2 * (m * 2 ^ (digitSize * d)) = 2 * m * 2 ^ (digitSize * d) := by ring
  rw [Fits, Fits, htwo, hneg, Nat.mul_add, pow_add, mul_comm (2 ^ (digitSize * d)),
    mul_le_mul_iff_left₀ hpow, mul_lt_mul_iff_left₀ hpow]

/-- A bignum of two digits above those that are zero has the second one unless it is the sign of the
first. -/
theorem length_eq {a : Bignum} (ha : Minimal a) {m : ℤ} {d : ℕ} (hm : m ≠ 0)
    (htwo : Fits digitSize 2 m)
    (h : a.toInt = m * 2 ^ (digitSize * d)) :
    a.length = d + if Fits digitSize 1 m then 1 else 2 := by
  have hfits := fits_toInt ha.length_pos
  have hmin := ha.minimal
  rw [h] at hfits hmin
  have hlow : d < a.length := by
    by_contra hle
    have hzero : Fits digitSize (d + 0) (m * 2 ^ (digitSize * d)) := hfits.mono (by omega)
    obtain ⟨h1, h2⟩ := fits_mul_radix.1 hzero
    rw [Nat.mul_zero, pow_zero] at h1 h2
    omega
  have hhigh : a.length ≤ d + 2 := by
    by_contra hlt
    exact hmin (d + 2) (by omega) (by omega) (fits_mul_radix.2 htwo)
  by_cases hone : Fits digitSize 1 m
  · rw [if_pos hone]
    by_contra hne
    exact hmin (d + 1) (by omega) (by omega) (fits_mul_radix.2 hone)
  rw [if_neg hone]
  by_contra hne
  have hequal : a.length = d + 1 := by omega
  rw [hequal] at hfits
  exact hone (fits_mul_radix.1 hfits)

/-! ## The digits of a float -/

theorem mixDigit_zero (result : ℤ) : mixDigit result 0 = mix result 0 := rfl

theorem exponent_nonneg {f : ℕ} {e : ℤ} (hf : f < 2 ^ type.digits)
    (hlarge : (2 : ℚ) ^ nPositiveFixnumBits ≤ f * 2 ^ e) : 0 ≤ e := by
  by_contra hneg
  have hpow : (2 : ℚ) ^ e ≤ 1 := zpow_le_one_of_nonpos₀ one_le_two (not_le.1 hneg).le
  have hle : (f : ℚ) * 2 ^ e ≤ f := mul_le_of_le_one_right (cast_nonneg f) hpow
  have hf' : f < 2 ^ nPositiveFixnumBits :=
    hf.trans_le (Nat.pow_le_pow_right two_pos ((digits_lt type).2.le.trans (by decide)))
  have hf'' : (f : ℚ) < 2 ^ nPositiveFixnumBits := by exact_mod_cast hf'
  linarith

theorem leftHalf_iff (m : ℤ) :
    (if (m % 2 ^ digitSize).testBit (digitSize - 1) then m / 2 ^ digitSize ≠
      -1 else m / 2 ^ digitSize ≠ 0) ↔ ¬Fits digitSize 1 m := by
  obtain ⟨right, hright⟩ :=
    eq_ofNat_of_zero_le (emod_nonneg m (by decide : (2 : ℤ) ^ digitSize ≠ 0))
  have hm := mul_ediv_add_emod m (2 ^ digitSize)
  have hlt := emod_lt_of_pos m (by decide : (0 : ℤ) < 2 ^ digitSize)
  rw [Fits, hright, IntBits.testBit_natCast, testBit_eq_decide_div_mod_eq]
  rw [hright] at hm hlt
  simp only [digitSize, decide_eq_true_eq] at *
  split_ifs <;> omega

theorem sxhashBignumFloat_decode {key : FloatBits type} {f d r : ℕ} (hr : r < digitSize)
    (hdecode : integerDecodeFloat type key = some (f, ((digitSize * d + r : ℕ) : ℤ),
      if key.msb then -1 else 1)) {m : ℤ}
    (hm : m = (if key.msb then -(f : ℤ) else f) * 2 ^ r) :
    sxhashBignumFloat type key =
      let result := mixDigit (dotimes d 316495330 fun _ result => mix result 0) (m % 2 ^ digitSize)
      some (if Fits digitSize 1 m then result else mixDigit result
        (m / 2 ^ digitSize % 2 ^ digitSize)) := by
  have hsign : (if (if key.msb then -1 else 1 : ℤ) < 0 then -(f : ℤ) else f) =
      if key.msb then -(f : ℤ) else f := by
    cases key.msb <;> rfl
  have hdigits : truncate ((digitSize * d + r : ℕ) : ℤ) (digitSize : ℕ) = d := by
    rw [truncate, ← ofNat_tdiv, mul_add_div digitSize_pos, div_eq_of_lt hr, Nat.add_zero]
  have hremaining : Int.tmod ((digitSize * d + r : ℕ) : ℤ) (digitSize : ℕ) = r := by
    rw [← ofNat_tmod, mul_add_mod, mod_eq_of_lt hr]
  have hright : ash (if key.msb then -(f : ℤ) else f) r = m := by rw [ash_ofNat, hm]
  have hleft : ash (if key.msb then -(f : ℤ) else f) (r - (digitSize : ℕ)) = m / 2 ^ digitSize := by
    obtain ⟨k, hk⟩ := Nat.exists_eq_add_of_lt hr
    have hneg : (r : ℤ) - (digitSize : ℕ) = -((k + 1 : ℕ) : ℤ) := by omega
    have hpow : (2 : ℤ) ^ digitSize = 2 ^ (k + 1) * 2 ^ r := by
      rw [← pow_add, show digitSize = k + 1 + r by omega]
    rw [hneg, ash_neg, hm, hpow, mul_ediv_mul_of_pos_left _ _ (by positivity)]
  have hldb (n : ℤ) : ldb digitSize 0 n = n % 2 ^ digitSize := by
    rw [ldb, ash_neg, pow_zero, ediv_one]
  unfold sxhashBignumFloat
  rw [hdecode, Option.bind_eq_bind, Option.bind_some]
  simp only [hsign, hdigits, hremaining, hright, hleft, hldb, toNat_natCast, leftHalf_iff]
  split_ifs <;> rfl

theorem sxhashBignumFloat_eq {key : FloatBits type} (hfinite : IsFinite type key) {b : Bignum}
    (hb : b.Normalized)
    (h : floatValue key = b.toInt) : sxhashBignumFloat type key = some (sxhashBignum b) := by
  obtain ⟨f, e, hdecode, hvalue, hf, -⟩ := integerDecodeFloat_eq hfinite
  have hlarge : (2 : ℤ) ^ nPositiveFixnumBits ≤ |b.toInt| := by
    have hnot := hb.not_fixnum
    by_contra hlt
    obtain ⟨hlow, hhigh⟩ := abs_lt.1 (not_le.1 hlt)
    exact hnot ⟨hlow.le, hhigh⟩
  have hlarge' : (2 : ℚ) ^ nPositiveFixnumBits ≤ f * 2 ^ e := by
    rw [hvalue, ← abs_floatValue, h]
    exact_mod_cast hlarge
  obtain ⟨k, rfl⟩ := eq_ofNat_of_zero_le (exponent_nonneg hf hlarge')
  have hsigned := signed_mul_eq hvalue
  obtain ⟨d, r, hr, rfl⟩ : ∃ d r, r < digitSize ∧ k = digitSize * d + r :=
    ⟨_, _, Nat.mod_lt k digitSize_pos, (div_add_mod k digitSize).symm⟩
  set m : ℤ := (if key.msb then -(f : ℤ) else f) * 2 ^ r with hm
  have hint : b.toInt = m * 2 ^ (digitSize * d) := by
    have hcast : (b.toInt : ℚ) = (m * 2 ^ (digitSize * d) : ℤ) := by
      rw [← h, ← hsigned, hm, zpow_natCast, pow_add]
      split_ifs <;> push_cast <;> ring
    exact_mod_cast hcast
  have hne : m ≠ 0 := by
    rintro hzero
    rw [hint, hzero, zero_mul, abs_zero] at hlarge
    exact absurd hlarge (by decide)
  have htwo : Fits digitSize 2 m := by
    have hpow : (2 : ℤ) ^ r ≤ 2 ^ digitSize := pow_le_pow_right₀ one_le_two hr.le
    have hf' : (f : ℤ) < 2 ^ nPositiveFixnumBits := by
      have hdigits : type.digits ≤ nPositiveFixnumBits := (digits_lt type).2.le.trans (by decide)
      exact_mod_cast hf.trans_le (Nat.pow_le_pow_right two_pos hdigits)
    have habs : |m| ≤ 2 ^ nPositiveFixnumBits * 2 ^ digitSize := by
      rw [hm, abs_mul, abs_of_pos (show (0 : ℤ) < 2 ^ r by positivity)]
      refine mul_le_mul ?_ hpow (by positivity) (by positivity)
      split_ifs <;> simp [hf'.le]
    obtain ⟨hlow, hhigh⟩ := abs_le.1 habs
    rw [Fits]
    simp only [nPositiveFixnumBits, digitSize] at hlow hhigh ⊢
    omega
  have hlength := length_eq hb.toMinimal hne htwo hint
  have hpos : (0 : ℤ) < 2 ^ (digitSize * d) := by positivity
  have hzeros : (dotimes d 316495330 fun i result => mixDigit result (b.ref i).toNat) =
      dotimes d 316495330 fun _ result => mix result 0 := by
    refine dotimes_congr fun i hi result => ?_
    have hzero : b.toInt / 2 ^ (digitSize * i) % 2 ^ digitSize = 0 := by
      obtain ⟨j, rfl⟩ := Nat.exists_eq_add_of_lt hi
      have hsplit : m * 2 ^ (digitSize * (i + j + 1)) = m * 2 ^ (digitSize * j) * 2 ^ digitSize *
          2 ^ (digitSize * i) := by
        rw [mul_succ, Nat.mul_add, pow_add, pow_add]
        ring
      rw [hint, hsplit, mul_ediv_cancel _ (by positivity), mul_emod_left]
    rw [digit_eq (by split_ifs at hlength <;> omega), hzero, mixDigit_zero]
  have hfirst : ((b.ref d).toNat : ℤ) = m % 2 ^ digitSize := by
    rw [digit_eq (by split_ifs at hlength <;> omega), hint, mul_ediv_cancel _ hpos.ne']
  rw [sxhashBignumFloat_decode hr hdecode hm, sxhashBignum, hlength]
  dsimp only
  by_cases hone : Fits digitSize 1 m
  · rw [if_pos hone, if_pos hone, dotimes, hzeros, hfirst]
  have hsecond : ((b.ref (d + 1)).toNat : ℤ) = m / 2 ^ digitSize % 2 ^ digitSize := by
    rw [if_neg hone] at hlength
    rw [digit_eq (by omega), hint, mul_succ, pow_add, ← ediv_ediv_of_nonneg hpos.le,
      mul_ediv_cancel _ hpos.ne']
  rw [if_neg hone, if_neg hone, dotimes, dotimes, hzeros, hfirst, hsecond]

/-! ## All integers -/

/-- `psxhash` of a float that is an integer, and of the integer, which is a fixnum or a bignum as
arithmetic returns it. -/
theorem psxhash_integer_float (widen : FloatBits .singleFloat → FloatBits .doubleFloat)
    {key : FloatBits type}
    (hfinite : IsFinite type key) {n : ℤ} (hn : floatValue key = n) {integer : LispInteger}
    (hinteger : integer.Represents n) :
    numberPsxhash widen (.float type key) = numberPsxhash widen (.integer integer) := by
  obtain ⟨f, e, hdecode, hvalue, -, -⟩ := integerDecodeFloat_eq hfinite
  have hnumber := signed_mul_eq hvalue
  have hrange : mostNegativeFixnumFloat ≤ floatValue key ∧
      floatValue key ≤ mostPositiveFixnumFloat type ↔ IsFixnum n := by
    obtain ⟨limit, hlimit, hmax⟩ := mostPositiveFixnumFloat_intCast type
    constructor
    · rintro ⟨hlow, hhigh⟩
      rw [hn] at hlow hhigh
      rw [mostNegativeFixnumFloat] at hlow
      rw [hlimit, Int.cast_le] at hhigh
      exact ⟨by exact_mod_cast hlow, hhigh.trans_lt hmax⟩
    · rintro ⟨hlow, hhigh⟩
      refine ⟨?_, not_lt.1 fun hlt => ?_⟩
      · rw [hn, mostNegativeFixnumFloat]
        exact_mod_cast hlow
      · have hle := lt_of_mostPositive hlt
        rw [hn] at hle
        exact not_le.2 hhigh (by exact_mod_cast hle)
  show hashFloat widen type key = some (integerSxhash integer)
  unfold hashFloat
  simp only [hdecode, hnumber]
  cases integer with
  | fixnum i =>
    obtain rfl : i.val = n := hinteger
    rw [if_pos (hrange.2 ⟨i.lower, i.upper⟩), hn, floor_intCast, sub_self, if_pos rfl]
    rfl
  | bignum b =>
    obtain ⟨rfl, hb⟩ := hinteger
    rw [if_neg (mt hrange.1 hb.not_fixnum), sxhashBignumFloat_eq hfinite hb hn]
    rfl

/-- `(expt 2d0 64)` and `(expt 2 64)`. -/
theorem psxhash_integer_float_power :
    numberPsxhash (fun _ => 0) (.float .doubleFloat 0x43F0000000000000#64) =
      numberPsxhash (fun _ => 0) (.integer (.bignum ⟨2, fun i => i⟩)) := by
  have hint : (⟨2, fun i => i⟩ : Bignum).toInt = 2 ^ 64 := by decide
  have hnormalized : (⟨2, fun i => i⟩ : Bignum).Normalized := by
    refine ⟨⟨by decide, fun n hn hlt => ?_⟩, ?_⟩
    · obtain rfl : n = 1 := by
        have hlt : n < 2 := hlt
        omega
      rw [hint]
      decide
    · rw [hint]
      unfold IsFixnum
      decide
  have hvalue : @floatValue .doubleFloat 0x43F0000000000000#64 = (2 ^ 64 : ℤ) := by
    have hordinal : ordinal .doubleFloat 0x43F0000000000000#64 = 1087 * 2 ^ 52 := by decide
    unfold floatValue
    rw [hordinal, if_neg (by decide)]
    norm_num [Format.value, Format.significand, Format.ulp, Format.exponent, Format.field,
      Format.fraction, FloatType.format]
  exact psxhash_integer_float _ (by unfold IsFinite; decide) hvalue ⟨hint, hnormalized⟩

end Sbcl.Numbers
