import Sbcl.Bignum.FloatCorrect
import Sbcl.Numbers.Compare

/-!
# A comparison of a float with a rational is one of their values

* `floatValue`, `Operand.value` : the numbers of the arguments;
* `floatBignum_eq` : a float and a bignum;
* `fixnumFloatComparer_eq` : a fixnum and a float, with either instruction;
* `holds_ratio`, `compareIntegerRatio_eq` : a significand or an integer, and a ratio;
* `mixed_comparisons_exact` : both orders, all five operations.
-/

namespace Sbcl.Numbers

open SbBignum Printer BinaryFloat

variable {type : FloatType}

/-- The number that a finite float is. -/
def floatValue (bits : FloatBits type) : ℚ :=
  (if bits.msb then -1 else 1) * type.format.value (ordinal type bits)

def Ratio.value (r : Ratio) : ℚ := r.numerator / r.denominator

def Operand.value : Operand → ℚ
  | fixnum n => n.val
  | bignum b => b.toInt
  | ratio r => r.value

@[simp] theorem holds_swap {α : Type*} [LinearOrder α] (op : CompareOp) (x y : α) :
    op.swap.holds x y = op.holds y x := by
  cases op with
  | eq => exact decide_eq_decide.2 eq_comm
  | _ => rfl

@[simp] theorem holds_intCast (op : CompareOp) (x y : ℤ) : op.holds (x : ℚ) y = op.holds x y := by
  cases op <;> simp [CompareOp.holds]

theorem holds_mul (op : CompareOp) {x y c : ℚ} (hc : 0 < c) :
    op.holds (x * c) (y * c) = op.holds x y := by
  cases op <;> simp [CompareOp.holds, hc, hc.ne']

variable {bits : FloatBits type}

/-- What is decoded is the float; one whose exponent is below the bound is below the limit of
fixnums. -/
theorem integerDecodeFloat_eq (hfinite : IsFinite type bits) :
    ∃ (f : ℕ) (e : ℤ), integerDecodeFloat type bits = some (f, e, if bits.msb then -1 else 1) ∧
      (f : ℚ) * 2 ^ e = type.format.value (ordinal type bits) ∧ f < 2 ^ type.digits ∧
      (type.format.field (ordinal type bits) < nFixnumBits + type.bias →
        e + type.digits ≤ nPositiveFixnumBits) := by
  set b := ordinal type bits with hb
  have hdigits : 2 * 2 ^ (type.digits - 1) = 2 ^ type.digits := by
    rw [← pow_succ', Nat.sub_add_cancel (digits_lt type).1.le]
  have hfraction := fraction_lt_type type b
  unfold integerDecodeFloat
  unfold IsFinite at hfinite
  rw [ldbBits_exponentByte, ← hb] at hfinite ⊢
  rw [ldbBits_significandByte, ← hb]
  by_cases hfield : type.format.field b = 0
  · have hlow : type.subnormalExponent + type.digits ≤ nPositiveFixnumBits := by
      cases type <;> decide
    have hlow' : (type.digits : ℤ) ≤ nPositiveFixnumBits := by cases type <;> decide
    have hvalue : type.format.value b = type.format.fraction b * 2 ^ type.subnormalExponent := by
      simp only [Format.value, Format.significand, Format.ulp, Format.exponent, hfield, if_true,
        format_minExponent]
      simp
    refine ⟨_, _, if_pos hfield, ?_, by omega, ?_⟩
    · rw [hvalue]
      split_ifs with hzero
      · rw [hzero, Nat.cast_zero, zero_mul, zero_mul]
      · rfl
    · intro _
      split_ifs <;> omega
  · refine ⟨_, _, (if_neg hfield).trans (if_neg (not_lt.2 hfinite)), ?_, ?_, ?_⟩
    · rw [exponent_normal type hfield, significand_normal type hfield]
      rfl
    · rw [significand_normal type hfield, Format.significand, if_neg hfield, format_digits]
      omega
    · intro hlt
      have hbits : nFixnumBits = nPositiveFixnumBits + 1 := rfl
      omega

theorem signed_mul_eq {f : ℕ} {e : ℤ}
    (hvalue : (f : ℚ) * 2 ^ e = type.format.value (ordinal type bits)) :
    ((if bits.msb then -1 else 1 : ℤ) : ℚ) * f * 2 ^ e = floatValue bits := by
  rw [floatValue, ← hvalue, mul_assoc]
  push_cast
  rfl

/-! ## Bignums -/

theorem lastBignumPart_of_length {a : Bignum} (hlength : 0 < a.length) {L exp : ℕ} (hL : 0 < L)
    (hL' : L ≤ nPositiveFixnumBits)
    (h : integerLength a.toInt = L + exp) : lastBignumPart (digitSize - 1 - L) exp a =
      a.toInt / 2 ^ exp := by
  have hword : digitSize = 64 := rfl
  have hbits : nPositiveFixnumBits = 62 := rfl
  have hfits :=
    integerLength_le_of_fits ((Limbs.fits_iff digitSize_pos hlength).1 (fits_toInt hlength))
  have hplace := Nat.div_add_mod exp digitSize
  have hrest := Nat.mod_lt exp digitSize_pos
  rw [hword] at hfits hplace hrest
  have hindex : exp / digitSize < a.length := by rw [hword]; omega
  have hnext : digitSize - 1 - L < exp % digitSize → exp / digitSize + 1 < a.length := by
    rw [hword]; omega
  obtain ⟨s, hs, hpart⟩ := lastBignumPart_eq a hindex hnext
  rw [hword] at hs
  have htop : IntBits.Fits L (a.toInt / 2 ^ exp) := by
    have hfits' := fits_integerLength a.toInt
    rwa [h, IntBits.fits_iff, Nat.add_comm, pow_add, ← Int.ediv_ediv_of_nonneg (by positivity),
      ← IntBits.fits_iff] at hfits'
  obtain ⟨hlow, hhigh⟩ := htop.mono (show L ≤ s by omega)
  rw [hpart, @bmod_eq _ _ 0 _ (by ring) hlow hhigh]

theorem signedSignificand_eq {field : ℕ}
    (hfield : ldbBits type.exponentByte bits = field) (hlarge : nFixnumBits + type.bias ≤ field) :
    floatValue bits = (signedSignificand type bits * 2 ^ (field - type.bias - type.digits) : ℤ) ∧
      signedSignificand type bits ≠ 0 ∧ (signedSignificand type bits < 0 ↔ bits.msb = true) ∧
      0 < integerLength (signedSignificand type bits) ∧
      integerLength (signedSignificand type bits) ≤ nPositiveFixnumBits := by
  set b := ordinal type bits with hb
  obtain ⟨hdigits, hdigits'⟩ := digits_lt type
  have hbits : nFixnumBits = 63 := rfl
  have hbits' : nPositiveFixnumBits = 62 := rfl
  rw [ldbBits_exponentByte, ← hb] at hfield
  have hfield0 : type.format.field b ≠ 0 := by omega
  have hfraction := fraction_lt_type type b
  have hsignificand :
      type.format.significand b = 2 ^ (type.digits - 1) + type.format.fraction b := by
    rw [Format.significand, if_neg hfield0, format_digits]
  have hexponent : type.format.exponent b = (field - type.bias - type.digits : ℕ) := by
    rw [← exponent_normal type hfield0, hfield]
    omega
  have hlow : 2 ^ 1 ≤ 2 ^ (type.digits - 1) := Nat.pow_le_pow_right two_pos (by omega)
  have hhigh : 2 * 2 ^ (type.digits - 1) ≤ 2 ^ nPositiveFixnumBits := by
    rw [← pow_succ']
    exact Nat.pow_le_pow_right two_pos (by omega)
  have hint : signedSignificand type bits = if bits.msb then -(type.format.significand b : ℤ)
      else type.format.significand b := by
    rw [signedSignificand, ldbBits_significandByte, ← hb, significand_normal type hfield0]
  have hhigh' : (type.format.significand b : ℤ) < 2 ^ nPositiveFixnumBits := by
    have : type.format.significand b < 2 ^ nPositiveFixnumBits := by omega
    exact_mod_cast this
  have hfits : IntBits.Fits nPositiveFixnumBits (signedSignificand type bits) := by
    rw [hint, IntBits.Fits]
    split_ifs <;> omega
  refine ⟨?_, ?_, ?_, ?_, integerLength_le_of_fits hfits⟩
  · rw [floatValue, Format.value, Format.ulp, ← hb, hexponent, hint, zpow_natCast]
    split_ifs <;> push_cast <;> ring
  · rw [hint]
    split_ifs <;> omega
  · rw [hint]
    split_ifs with hmsb
    · exact iff_of_true (by omega) hmsb
    · exact iff_of_false (by omega) hmsb
  · refine Nat.pos_of_ne_zero fun hzero => ?_
    have hfits' := fits_integerLength (signedSignificand type bits)
    rw [hzero, IntBits.Fits, hint] at hfits'
    split_ifs at hfits' <;> omega

theorem floatValue_small (hfinite : IsFinite type bits)
    (hsmall : ldbBits type.exponentByte bits < nFixnumBits + type.bias) :
    |floatValue bits| < 2 ^ nPositiveFixnumBits := by
  obtain ⟨f, e, -, hvalue, hf, hlimit⟩ := integerDecodeFloat_eq hfinite
  rw [ldbBits_exponentByte] at hsmall
  have hpow : (0 : ℚ) < 2 ^ e := zpow_pos two_pos e
  have habs : |floatValue bits| = f * 2 ^ e := by
    rw [floatValue, ← hvalue, abs_mul, abs_of_nonneg (mul_nonneg (Nat.cast_nonneg f) hpow.le)]
    split_ifs <;> simp
  have hf' : (f : ℚ) < 2 ^ type.digits := by exact_mod_cast hf
  calc |floatValue bits|
      < 2 ^ type.digits * 2 ^ e := by
        rw [habs]
        exact mul_lt_mul_of_pos_right hf' hpow
    _ = 2 ^ (e + type.digits) := by rw [← zpow_natCast, ← zpow_add₀ two_ne_zero, add_comm]
    _ ≤ 2 ^ nPositiveFixnumBits := by
        rw [← zpow_natCast]
        exact zpow_le_zpow_right₀ one_le_two (hlimit hsmall)

variable {v : ℚ}

theorem small_lt_bignum {b : NormalBignum} (hv : |v| < 2 ^ nPositiveFixnumBits) :
    (v < b.toInt ↔ 0 ≤ b.toInt) ∧ ((b.toInt : ℚ) < v ↔ b.toInt < 0) := by
  obtain ⟨hlow, hhigh⟩ := abs_lt.1 hv
  have hnot := b.normalized.not_fixnum
  have hpow : (0 : ℤ) < 2 ^ nPositiveFixnumBits := by positivity
  rcases Int.lt_or_le b.toInt 0 with hneg | hneg
  · have hlt : b.toInt < -2 ^ nPositiveFixnumBits := not_le.1 fun h => hnot ⟨h, hneg.trans hpow⟩
    have hlt' : (b.toInt : ℚ) < -2 ^ nPositiveFixnumBits := by exact_mod_cast hlt
    exact ⟨⟨fun h => by linarith, fun h => by omega⟩, ⟨fun _ => hneg, fun _ => by linarith⟩⟩
  · have hle : 2 ^ nPositiveFixnumBits ≤ b.toInt :=
      not_lt.1 fun h => hnot ⟨(neg_nonpos.2 hpow.le).trans hneg, h⟩
    have hle' : (2 : ℚ) ^ nPositiveFixnumBits ≤ b.toInt := by exact_mod_cast hle
    exact ⟨⟨fun _ => hneg, fun _ => by linarith⟩, ⟨fun h => by linarith, fun h => by omega⟩⟩

theorem mul_pow_compare (int x : ℤ) (exp : ℕ) :
    (int * 2 ^ exp < x ↔ int < x / 2 ^ exp ∨ int = x / 2 ^ exp ∧ ¬2 ^ exp ∣ x) ∧
      (x < int * 2 ^ exp ↔ x / 2 ^ exp < int) ∧
      (int * 2 ^ exp = x ↔ int = x / 2 ^ exp ∧ 2 ^ exp ∣ x) := by
  have hpow : (0 : ℤ) < 2 ^ exp := by positivity
  have hgt : x < int * 2 ^ exp ↔ x / 2 ^ exp < int := (Int.ediv_lt_iff_lt_mul hpow).symm
  have heq : int * 2 ^ exp = x ↔ int = x / 2 ^ exp ∧ 2 ^ exp ∣ x := by
    constructor
    · rintro rfl
      exact ⟨(Int.mul_ediv_cancel _ hpow.ne').symm, Dvd.intro_left _ rfl⟩
    · rintro ⟨rfl, hdvd⟩
      exact Int.ediv_mul_cancel hdvd
  refine ⟨?_, hgt, heq⟩
  rw [lt_iff_le_and_ne, Ne, heq, ← not_lt, hgt, not_lt, le_iff_lt_or_eq]
  constructor
  · rintro ⟨hlt | hequal, hne⟩
    · exact .inl hlt
    · exact .inr ⟨hequal, fun hdvd => hne ⟨hequal, hdvd⟩⟩
  · rintro (hlt | ⟨hequal, hne⟩)
    · exact ⟨.inl hlt, fun h => hlt.ne h.1⟩
    · exact ⟨.inr hequal, fun h => hne h.2⟩

theorem floatBignum_eq (hfinite : IsFinite type bits) (b : NormalBignum) :
    floatBignumLt type bits b.toBignum = decide (floatValue bits < b.toInt) ∧
      floatBignumGt type bits b.toBignum = decide ((b.toInt : ℚ) < floatValue bits) ∧
      floatBignumEq type bits b.toBignum = decide (floatValue bits = b.toInt) := by
  have hlength := b.normalized.length_pos
  have hplus : bignum0OrPlusp b.ref b.length = decide (0 ≤ b.toInt) := by
    rw [Bool.eq_iff_iff, decide_eq_true_iff, bignum0OrPlusp_iff]
  rcases Nat.lt_or_ge (ldbBits type.exponentByte bits) (nFixnumBits + type.bias)
    with hsmall | hlarge
  · obtain ⟨hlt, hgt⟩ := small_lt_bignum (b := b) (floatValue_small hfinite hsmall)
    have hne : floatValue bits ≠ b.toInt := by
      intro h
      rcases Int.lt_or_le b.toInt 0 with hneg | hneg
      · exact h.symm.not_lt (hgt.2 hneg)
      · exact h.not_lt (hlt.2 hneg)
    simp only [floatBignumLt, floatBignumGt, floatBignumEq, if_pos hsmall, hplus, hlt, hgt, hne,
      decide_false, true_and, and_true]
    rw [← decide_not, decide_eq_decide, not_le]
  · obtain ⟨hvalue, hne, hneg, hpos, hbound⟩ := signedSignificand_eq rfl hlarge
    simp only [floatBignumLt, floatBignumGt, floatBignumEq, if_neg (not_lt.2 hlarge),
      bignumBufferIntegerLength_eq b.normalized.toMinimal]
    generalize ldbBits type.exponentByte bits - type.bias - type.digits = exp at hvalue ⊢
    generalize signedSignificand type bits = int at hvalue hne hneg hpos hbound ⊢
    have hlen := integerLength_mul_pow hne exp
    have hpow : (0 : ℤ) < 2 ^ exp := by positivity
    have hsign : int * 2 ^ exp < 0 ↔ bits.msb = true := by rw [← hneg, ← not_le, ← not_le,
      mul_nonneg_iff_of_pos_right hpow]
    rw [hvalue]
    simp only [Int.cast_lt, Int.cast_inj]
    rcases lt_trichotomy (integerLength int + exp) (integerLength b.toInt) with h | h | h
    · -- The bignum is longer.
      obtain ⟨hlt, hgt⟩ := lt_iff_of_integerLength_lt (hlen.trans_lt h)
      have hdiff : (0 : ℤ) < integerLength b.toInt - (integerLength int + exp : ℕ) := by omega
      have hequal : int * 2 ^ exp ≠ b.toInt :=
        fun heq => by rw [← heq, hlen] at h; exact lt_irrefl _ h
      simp only [if_pos hdiff, hplus, hlt, hgt, hequal, h.ne', decide_false, Bool.false_and,
        true_and, and_true]
      rw [← decide_not, decide_eq_decide, not_le]
    · have hword : digitSize = 64 := rfl
      have hfits :=
        integerLength_le_of_fits ((Limbs.fits_iff digitSize_pos hlength).1 (fits_toInt hlength))
      have hpart := lastBignumPart_of_length hlength hpos hbound h.symm
      have hzero : bignumLowerBitsZeroP b.toBignum exp b.length =
          decide ((2 : ℤ) ^ exp ∣ b.toInt) := by
        rw [Bool.eq_iff_iff, decide_eq_true_iff]
        refine bignumLowerBitsZeroP_iff b.toBignum ?_
        rw [hword] at hfits ⊢
        omega
      obtain ⟨hlt, hgt, hequal⟩ := mul_pow_compare int b.toInt exp
      simp only [hlt, hgt, hequal, hpart, hzero, h, sub_self, lt_irrefl, if_false]
      refine ⟨?_, trivial, ?_⟩
      · rcases lt_trichotomy int (b.toInt / 2 ^ exp) with hint | hint | hint
        · rw [if_pos (sub_pos.2 hint), decide_eq_true (.inl hint)]
        · rw [hint, sub_self, if_neg (lt_irrefl _), if_neg (lt_irrefl _), ← decide_not,
            decide_eq_decide]
          simp
        · rw [if_neg (sub_neg.2 hint).not_gt, if_pos (sub_neg.2 hint), eq_comm,
            decide_eq_false_iff_not]
          rintro (hlt' | ⟨hequal', -⟩) <;> omega
      · rw [decide_true, Bool.true_and, ← Bool.decide_and, decide_eq_decide]
        exact and_comm
    · -- The float is longer.
      obtain ⟨hgt, hlt⟩ := lt_iff_of_integerLength_lt (h.trans_eq hlen.symm)
      have hdiff : integerLength b.toInt - (integerLength int + exp : ℕ) < (0 : ℤ) := by omega
      have hequal : int * 2 ^ exp ≠ b.toInt :=
        fun heq => by rw [← heq, hlen] at h; exact lt_irrefl _ h
      simp only [if_neg hdiff.not_gt, if_pos hdiff, hlt, hgt, hequal, h.ne, hsign, decide_false,
        Bool.false_and, and_true]
      refine ⟨Bool.decide_eq_true.symm, ?_⟩
      rw [Bool.eq_iff_iff, decide_eq_true_iff, ← not_lt, hsign, Bool.not_eq_true', Bool.not_eq_true]

theorem compareFloatBignum_eq (hfinite : IsFinite type bits) (op : CompareOp) (b : NormalBignum) :
    compareFloatBignum type op bits b.toBignum = op.holds (floatValue bits) (b.toInt : ℚ) := by
  obtain ⟨hlt, hgt, hequal⟩ := floatBignum_eq hfinite b
  cases op with
  | lt => exact hlt.trans (decide_eq_decide.2 Iff.rfl)
  | gt => exact hgt.trans (decide_eq_decide.2 Iff.rfl)
  | eq => exact hequal.trans (decide_eq_decide.2 Iff.rfl)
  | le =>
    show (!floatBignumGt type bits b.toBignum) = _
    rw [hgt, ← decide_not]
    exact decide_eq_decide.2 not_lt
  | ge =>
    show (!floatBignumLt type bits b.toBignum) = _
    rw [hlt, ← decide_not]
    exact decide_eq_decide.2 not_lt

theorem compareBignumFloat_eq (hfinite : IsFinite type bits) (op : CompareOp) (b : NormalBignum) :
    compareBignumFloat type op b.toBignum bits = op.holds (b.toInt : ℚ) (floatValue bits) := by
  rw [← holds_swap, ← compareFloatBignum_eq hfinite]
  cases op <;> rfl

/-! ## Fixnums -/

theorem abs_floatValue (bits : FloatBits type) :
    |floatValue bits| = type.format.value (ordinal type bits) := by
  have h0 : 0 ≤ type.format.value (ordinal type bits) :=
    mul_nonneg (Nat.cast_nonneg _) (ulp_pos _ _).le
  rw [floatValue, abs_mul, abs_of_nonneg h0]
  split_ifs <;> simp

theorem exists_value_near (hfinite : IsFinite type bits) {z : ℤ} (hz : |z - floatValue bits| < 1) :
    ∃ b, type.format.value b = |(z : ℚ)| := by
  obtain ⟨f, e, -, hvalue, hf, -⟩ := integerDecodeFloat_eq hfinite
  rcases Int.lt_or_le e 0 with he | he
  · obtain ⟨j, hj⟩ : ∃ j : ℕ, type.format.minExponent + j = 0 := by
      cases type with
      | singleFloat => exact ⟨149, rfl⟩
      | doubleFloat => exact ⟨1074, rfl⟩
    have hhalf : (2 : ℚ) ^ e ≤ 2 ^ (-1 : ℤ) := zpow_le_zpow_right₀ one_le_two (by omega)
    have hf' : (f : ℚ) + 1 ≤ 2 ^ type.digits := by exact_mod_cast hf
    have hsmall : |floatValue bits| ≤ f * 2 ^ (-1 : ℤ) := by
      rw [abs_floatValue, ← hvalue]
      exact mul_le_mul_of_nonneg_left hhalf (Nat.cast_nonneg f)
    have habs : |(z : ℚ)| ≤ |z - floatValue bits| + |floatValue bits| := by
      have := abs_add_le (z - floatValue bits) (floatValue bits)
      rwa [sub_add_cancel] at this
    have hbound : |(z : ℚ)| ≤ 2 ^ type.digits := by
      rw [zpow_neg_one] at hsmall
      linarith
    have hq : z.natAbs ≤ 2 ^ type.format.digits := by
      rw [← Int.cast_abs, Int.abs_eq_natAbs] at hbound
      rw [format_digits]
      exact_mod_cast hbound
    obtain ⟨b, hb⟩ := exists_value type.format j hq
    refine ⟨b, ?_⟩
    rw [hb, hj, zpow_zero, mul_one, ← Int.cast_abs, Int.abs_eq_natAbs, Int.cast_natCast]
  · -- The float is an integer.
    obtain ⟨k, rfl⟩ := Int.eq_ofNat_of_zero_le he
    obtain ⟨w, hw⟩ : ∃ w : ℤ, floatValue bits = w := by
      refine ⟨(if bits.msb then -1 else 1) * (f * 2 ^ k), ?_⟩
      rw [floatValue, ← hvalue]
      push_cast
      rfl
    rw [hw] at hz
    have hz' : |z - w| < 1 := by exact_mod_cast hz
    obtain rfl : z = w := sub_eq_zero.1 (Int.abs_lt_one_iff.1 hz')
    exact ⟨_, by rw [← hw, abs_floatValue]⟩

theorem lt_of_mostPositive (h : mostPositiveFixnumFloat type < floatValue bits) :
    2 ^ nPositiveFixnumBits ≤ floatValue bits := by
  obtain ⟨j, hj⟩ :
      ∃ j : ℕ, type.format.minExponent + j = (nPositiveFixnumBits - type.digits : ℕ) := by
    cases type with
    | singleFloat => exact ⟨187, rfl⟩
    | doubleFloat => exact ⟨1083, rfl⟩
  have hpow : 2 ^ type.digits = 2 * 2 ^ (type.digits - 1) := by
    rw [← pow_succ', Nat.sub_add_cancel (digits_lt type).1.le]
  have hone := Nat.two_pow_pos (type.digits - 1)
  have hmax := value_multiple type.format (q := 2 ^ type.digits - 1) (j :=
    j) (by rw [format_digits]; omega)
    (.inr (by rw [format_digits]; omega))
  have hnext := value_multiple type.format (q := 2 ^ type.digits) (j := j) (by rw [format_digits])
    (.inr (by rw [format_digits]; omega))
  rw [hj, zpow_natCast, Nat.cast_sub (by omega)] at hmax
  rw [hj, zpow_natCast] at hnext
  push_cast at hmax hnext
  have hpos : 0 < floatValue bits := by
    refine lt_of_le_of_lt ?_ h
    rw [mostPositiveFixnumFloat, ← hmax]
    exact mul_nonneg (Nat.cast_nonneg _) (ulp_pos _ _).le
  have hlimit : (2 : ℚ) ^ type.digits * 2 ^ (nPositiveFixnumBits - type.digits) =
      2 ^ nPositiveFixnumBits := by
    rw [← pow_add,
      Nat.add_sub_cancel'
      (by have := digits_lt type; have : nPositiveFixnumBits = 62 := rfl; omega)]
  rw [← abs_of_pos hpos, abs_floatValue] at h ⊢
  rw [mostPositiveFixnumFloat, ← hmax] at h
  rw [← hlimit, ← hnext]
  have hlt := (value_strictMono type.format).lt_iff_lt.1 h
  exact (value_strictMono type.format).monotone (by omega)

theorem mostPositiveFixnumFloat_intCast (type : FloatType) :
    ∃ limit : ℤ, mostPositiveFixnumFloat type = limit ∧ limit < 2 ^ nPositiveFixnumBits := by
  refine ⟨(2 ^ type.digits - 1) * 2 ^ (nPositiveFixnumBits - type.digits),
    ?_, by cases type <;> decide⟩
  rw [mostPositiveFixnumFloat]
  push_cast
  rfl

variable {toFloat : ℤ → ℚ}

theorem unaryTruncate_cases (hfloor : toFloat ⌊v⌋ = ⌊v⌋) (hceil : toFloat ⌈v⌉ = ⌈v⌉) :
    ∃ q : ℤ, unaryTruncate v = q ∧ toFloat q = q ∧
      (0 ≤ v ∧ 0 ≤ q ∧ (q : ℚ) ≤ v ∧ v < q + 1 ∨ v < 0 ∧ q ≤ 0 ∧ v ≤ q ∧ (q : ℚ) - 1 < v) := by
  rcases le_or_gt 0 v with h | h
  · exact ⟨⌊v⌋, if_pos h, hfloor,
      .inl ⟨h, Int.floor_nonneg.2 h, Int.floor_le v, Int.lt_floor_add_one v⟩⟩
  · exact ⟨⌈v⌉, if_neg h.not_ge, hceil,
      .inr ⟨h, Int.ceil_nonpos.2 h.le, Int.le_ceil v, by linarith [Int.ceil_lt_add_one v]⟩⟩

theorem fixnumFloatComparer_inRange (floorVop : Bool) (hmax : v ≤ mostPositiveFixnumFloat type)
    (hmin : mostNegativeFixnumFloat ≤ v) (hfloor : toFloat ⌊v⌋ = ⌊v⌋) (hceil : toFloat ⌈v⌉ = ⌈v⌉)
    (op : CompareOp) (n : ℤ) :
    fixnumFloatComparer type floorVop toFloat op n v = op.holds (n : ℚ) v := by
  obtain ⟨q, hq, hfloat, hside⟩ := unaryTruncate_cases hfloor hceil
  unfold fixnumFloatComparer
  rw [if_neg hmax.not_gt, if_neg hmin.not_gt]
  have hequal : (q = n ∧ (q : ℚ) = v) ↔ (n : ℚ) = v := by
    refine ⟨fun h => h.1 ▸ h.2, fun h => ?_⟩
    have hqn : q = n := by
      rcases hside with ⟨-, -, hle, hlt⟩ | ⟨-, -, hle, hlt⟩ <;> rw [← h] at hle hlt
      · exact le_antisymm (by exact_mod_cast hle) (Int.lt_add_one_iff.1 (by exact_mod_cast hlt))
      · exact le_antisymm (Int.sub_one_lt_iff.1 (by exact_mod_cast hlt)) (by exact_mod_cast hle)
    exact ⟨hqn, hqn ▸ h⟩
  cases floorVop with
  | true =>
    cases op with
    | eq => simp only [if_true, hq, hfloat, CompareOp.holds, ← Bool.decide_and, hequal]
    | gt => exact decide_eq_decide.2 Int.floor_lt
    | lt => exact decide_eq_decide.2 Int.lt_ceil
    | ge =>
      simp only [if_true, hfloor, CompareOp.holds, ← Bool.decide_and, ← Bool.decide_or,
        Int.floor_lt, decide_eq_decide]
      rw [le_iff_lt_or_eq]
      refine or_congr_right ⟨fun h => by rw [h.1, h.2], fun h => ?_⟩
      rw [h, Int.floor_intCast]
      exact ⟨rfl, rfl⟩
    | le =>
      simp only [if_true, hceil, CompareOp.holds, ← Bool.decide_and, ← Bool.decide_or, Int.lt_ceil,
        decide_eq_decide]
      rw [le_iff_lt_or_eq]
      refine or_congr_right ⟨fun h => by rw [h.1, h.2], fun h => ?_⟩
      rw [← h, Int.ceil_intCast]
      exact ⟨rfl, rfl⟩
  | false =>
    have hnear : (q : ℚ) - 1 < v ∧ v < q + 1 := by
      rcases hside with ⟨-, -, hle, hlt⟩ | ⟨-, -, hle, hlt⟩ <;> constructor <;> linarith
    rcases lt_trichotomy n q with h | h | h
    · have hcast : (n : ℚ) + 1 ≤ q := by exact_mod_cast h
      have hlt : (n : ℚ) < v := by linarith
      cases op <;> simp [CompareOp.holds, hq, h, h.ne', h.not_gt, hlt, hlt.le, hlt.ne,
        hlt.not_gt, hlt.not_ge]
    · subst h
      rcases hside with ⟨hv, hn, hle, -⟩ | ⟨hv, hn, hle, -⟩
      · cases op <;> simp [CompareOp.holds, hq, hfloat, hv, hn, hle, hle.not_gt,
          le_iff_eq_or_lt, eq_comm]
      · cases op <;> simp [CompareOp.holds, hq, hfloat, hv, hn, hle, hle.not_gt,
          hv.not_ge, hle.ge_iff_eq']
    · have hcast : (q : ℚ) + 1 ≤ n := by exact_mod_cast h
      have hlt : v < (n : ℚ) := by linarith
      cases op <;> simp [CompareOp.holds, hq, h, h.ne, h.not_gt, hlt, hlt.le, hlt.ne',
        hlt.not_gt, hlt.not_ge]

theorem fixnumFloatComparer_eq (hfinite : IsFinite type bits) (floorVop : Bool)
    (htoFloat : ∀ n : Fixnum, (∃ b, type.format.value b = |(n.val : ℚ)|) → toFloat n.val = n.val)
    (op : CompareOp) (n : Fixnum) :
    fixnumFloatComparer type floorVop toFloat op n.val (floatValue bits) = op.holds (n.val : ℚ)
      (floatValue bits) := by
  have hlow : (-2 ^ nPositiveFixnumBits : ℚ) ≤ n.val := by exact_mod_cast n.lower
  have hhigh : (n.val : ℚ) < 2 ^ nPositiveFixnumBits := by exact_mod_cast n.upper
  rcases lt_or_ge (mostPositiveFixnumFloat type) (floatValue bits) with hmax | hmax
  · have hlt : (n.val : ℚ) < floatValue bits := hhigh.trans_le (lt_of_mostPositive hmax)
    unfold fixnumFloatComparer
    rw [if_pos hmax]
    cases op <;> simp [CompareOp.holds, hlt, hlt.le, hlt.ne, hlt.not_gt, hlt.not_ge]
  rcases lt_or_ge (floatValue bits) mostNegativeFixnumFloat with hmin | hmin
  · have hlt : floatValue bits < n.val := hmin.trans_le hlow
    unfold fixnumFloatComparer
    rw [if_neg hmax.not_gt, if_pos hmin]
    cases op <;> simp [CompareOp.holds, hlt, hlt.le, hlt.ne', hlt.not_gt, hlt.not_ge]
  have hconvert {z : ℤ} (hz : |z - floatValue bits| < 1) (hzlow : -2 ^ nPositiveFixnumBits ≤ z)
      (hzhigh : z < 2 ^ nPositiveFixnumBits) : toFloat z = z :=
        htoFloat ⟨z, hzlow, hzhigh⟩ (exists_value_near hfinite hz)
  obtain ⟨limit, hlimit, hlimit'⟩ := mostPositiveFixnumFloat_intCast type
  have hmaxInt : floatValue bits ≤ limit := hlimit ▸ hmax
  have hminInt : ((-2 ^ nPositiveFixnumBits : ℤ) : ℚ) ≤ floatValue bits := by
    rw [mostNegativeFixnumFloat] at hmin
    exact_mod_cast hmin
  have hfloorLow := Int.le_floor.2 hminInt
  have hceilHigh := Int.ceil_le.2 hmaxInt
  have hfloorCeil := Int.floor_le_ceil (floatValue bits)
  refine fixnumFloatComparer_inRange floorVop hmax hmin (hconvert ?_ hfloorLow (by omega))
    (hconvert ?_ (by omega) (by omega)) op n.val
  · rw [abs_lt]
    constructor <;> linarith [Int.floor_le (floatValue bits),
      Int.lt_floor_add_one (floatValue bits)]
  · rw [abs_lt]
    constructor <;> linarith [Int.le_ceil (floatValue bits), Int.ceil_lt_add_one (floatValue bits)]

theorem Ratio.ne_intCast (r : Ratio) (x : ℤ) : (x : ℚ) ≠ r.value := by
  intro h
  have hden : (0 : ℚ) < r.denominator := by exact_mod_cast one_pos.trans r.one_lt
  rw [Ratio.value, eq_div_iff hden.ne'] at h
  have hmul : x * r.denominator = r.numerator := by exact_mod_cast h
  have hdvd : r.denominator ∣ Int.gcd r.numerator r.denominator :=
    Int.dvd_coe_gcd (Dvd.intro_left _ hmul) dvd_rfl
  rw [r.coprime] at hdvd
  have := Int.le_of_dvd one_pos hdvd
  have := r.one_lt
  omega

theorem compareIntegerRatio_eq (op : CompareOp) (x : ℤ) (r : Ratio) :
    compareIntegerRatio op x r = op.holds (x : ℚ) r.value := by
  have hne := r.ne_intCast x
  cases op with
  | eq => exact (decide_eq_false hne).symm
  | lt => exact decide_eq_decide.2 Int.lt_ceil
  | gt => exact decide_eq_decide.2 Int.floor_lt
  | le => exact decide_eq_decide.2 (Int.lt_ceil.trans hne.le_iff_lt.symm)
  | ge => exact decide_eq_decide.2 (Int.floor_lt.trans hne.symm.le_iff_lt.symm)

theorem compareRatioInteger_eq (op : CompareOp) (r : Ratio) (y : ℤ) :
    compareRatioInteger op r y = op.holds r.value (y : ℚ) := by
  rw [← holds_swap, ← compareIntegerRatio_eq]
  cases op <;> rfl

theorem holds_ratio (op : CompareOp) (r : Ratio) (int : ℤ) {e : ℤ} (he : e < 0) :
    op.holds (int * r.denominator) (ash r.numerator (-e)) = op.holds (int * 2 ^ e : ℚ) r.value := by
  obtain ⟨k, hk⟩ := Int.eq_ofNat_of_zero_le (neg_nonneg.2 he.le)
  obtain rfl : e = -(k : ℤ) := by omega
  have hden : (0 : ℚ) < r.denominator := by exact_mod_cast one_pos.trans r.one_lt
  have hpow : (0 : ℚ) < 2 ^ k := by positivity
  rw [neg_neg, ash_ofNat, ← holds_intCast,
    ← @holds_mul op (int * 2 ^ (-(k : ℤ))) r.value _ (mul_pos hden hpow), Ratio.value,
    zpow_neg, zpow_natCast]
  congr 1
  · push_cast
    field_simp
  · push_cast
    field_simp

/-! ## Both orders -/

/-- For a finite float and any fixnum, bignum or ratio, each operation in either order is that of
the exact values. -/
theorem mixed_comparisons_exact {float : FloatBits type} (hfinite : IsFinite type float)
    (floorVop : Bool) (toFloat : ℤ → ℚ)
    (htoFloat : ∀ n : Fixnum, (∃ b, type.format.value b = |(n.val : ℚ)|) → toFloat n.val = n.val)
    (op : CompareOp) (operand : Operand) :
    compareFloatRational type floorVop toFloat op float operand =
      op.holds (floatValue float) operand.value ∧
      compareRationalFloat type floorVop toFloat op operand float =
        op.holds operand.value (floatValue float) := by
  obtain ⟨f, e, hdecode, hvalue, -, -⟩ := integerDecodeFloat_eq hfinite
  have htest : infOrNanTest type float = none := if_pos hfinite
  have hfloat := signed_mul_eq hvalue
  unfold compareFloatRational compareRationalFloat
  simp only [htest, hdecode, hfloat]
  cases operand with
  | fixnum n =>
    simp only [fixnumFloatComparer_eq hfinite floorVop htoFloat, holds_swap,
      Operand.value, and_true]
    split_ifs with hzero
    · rw [hzero, Int.cast_zero]
    · rfl
  | bignum b =>
    exact ⟨compareFloatBignum_eq hfinite op b, compareBignumFloat_eq hfinite op b⟩
  | ratio r =>
    simp only [Operand.value]
    rcases Nat.eq_zero_or_pos f with hzero | hpos
    · have hv : floatValue float = (0 : ℤ) := by rw [← hfloat, hzero, Nat.cast_zero, mul_zero,
        zero_mul, Int.cast_zero]
      rw [if_pos hzero, if_pos hzero, compareIntegerRatio_eq, compareRatioInteger_eq, hv]
      exact ⟨rfl, rfl⟩
    have hint : ((if floatValue float < 0 then -f else f : ℤ) : ℚ) * 2 ^ e = floatValue float := by
      have hpos' : (0 : ℚ) < f * 2 ^ e := mul_pos (Nat.cast_pos.2 hpos) (zpow_pos two_pos e)
      rw [← hfloat, mul_assoc]
      cases float.msb <;> simp [hpos', hpos'.not_gt]
    generalize (if floatValue float < 0 then -f else f : ℤ) = int at hint ⊢
    rw [if_neg hpos.ne', if_neg hpos.ne', ← hint]
    rcases Int.lt_or_le e 0 with he | he
    · have hswap := holds_ratio op.swap r int he
      rw [holds_swap, holds_swap] at hswap
      rw [if_pos he, if_pos he, holds_ratio op r int he, hswap]
      exact ⟨rfl, rfl⟩
    · obtain ⟨k, rfl⟩ := Int.eq_ofNat_of_zero_le he
      rw [if_neg he.not_gt, if_neg he.not_gt, compareIntegerRatio_eq,
        compareRatioInteger_eq, ash_ofNat]
      push_cast
      exact ⟨rfl, rfl⟩

/-- `(< 1.8446744073709552d19 (1+ (expt 2 64)))`, and the other order, where the float is the power.
-/
theorem mixed_comparisons_exact_twoWords :
    let float : FloatBits .doubleFloat := 0x43F0000000000000#64
    let operand : Operand := .bignum ⟨_, normalized_twoWords⟩
    compareFloatRational .doubleFloat true Int.cast .lt float operand =
      CompareOp.lt.holds (floatValue float) operand.value ∧
      compareRationalFloat .doubleFloat true Int.cast .lt operand float =
        CompareOp.lt.holds operand.value (floatValue float) :=
  mixed_comparisons_exact (by unfold IsFinite; decide) true Int.cast (fun _ _ => rfl) .lt _

end Sbcl.Numbers
