import Sbcl.Printer.FlonumNearest

/-!
# The floats that are printed with as few digits as there can be

The digits are the fewest in the interval of the algorithm. It has the ends of the rounding
interval, or is wider, for a float with an exponent field. For the smallest floats, whose fraction
is moved to the left, it is narrower, and a decimal of fewer digits may be between its end and the
end of the rounding interval.

* `generate_minimal` : a decimal of fewer digits is not in the interval, from one turn to the next;
* `length_le_of_hasDigits` : with any exponent;
* `inAlignedInterval_of_field` : the rounding interval is in the interval of the algorithm, but for
  the least float with an exponent field, whose digits are computed;
* `flonum_shortest` : a float with an exponent field is printed with the fewest digits.
-/

namespace Sbcl.Printer

open BinaryFloat Numeral Option Nat

variable {st : Scaled} {f fuel : ℕ} {est k : ℤ}

theorem least_check (type : FloatType) : ∀ δ : ℕ, δ < 2 →
    (freeFormat type (2 ^ (type.digits - 1)) (-smallScale type (type.digits - 1))
      (-smallExponent type (type.digits - 1) - (δ : ℤ))).map (fun result => result.2.length) =
    (generate true true (type.width * 20)
      ⟨2 ^ type.digits * 10 ^ smallExponent type (type.digits - 1),
      2 ^ (smallScale type (type.digits - 1) + 1), 10 ^ smallExponent type (type.digits - 1),
      10 ^ smallExponent type (type.digits - 1)⟩).map List.length := by
  cases type <;> decide +kernel

theorem leastPositive_check :
    percentFlonumToDigits .doubleFloat (1#64)
      (-323) = some (-323, [4, 9, 4, 0, 6, 5, 6, 4, 5, 8, 4, 1, 2, 4, 6, 5, 4]) ∧
      (2 * 2 ^ 52 + 1) * 10 ^ 323 < 2 ^ (1126 + 1) ∧
      2 ^ (1126 + 1) ≤ (2 * 2 ^ 52 + 1) * 10 ^ (323 + 1) ∧
      10 ^ 324 < 10 * 2 ^ 1074 ∧ 10 * 2 ^ 1074 < 3 * 10 ^ 324 := by
  decide +kernel

/-! ## The fewest digits -/

variable {ok : Bool} {x low high y : ℚ} {digits : List ℕ}

/-- A decimal of a number of digits, or of fewer. -/
def HasDigits (m : ℕ) (y : ℚ) : Prop := ∃ (N : ℕ) (j : ℤ), N < 10 ^ m ∧ y = N * 10 ^ j

theorem generate_minimal (hs : 0 < st.s) (hlower : ¬Below ok st.fraction st.lowGap)
    (hupper : ¬Below ok 1 (st.fraction + st.highGap)) (h : generate ok ok fuel st = some digits) :
    ∀ m < digits.length, ∀ N : ℤ, ¬(Below ok (st.fraction - st.lowGap) (N / 10 ^ m) ∧
      Below ok (N / 10 ^ m) (st.fraction + st.highGap)) := by
  induction fuel generalizing st digits with
  | zero => exact nomatch h
  | succ fuel ih =>
    intro m hm N
    have hfraction := next_fraction hs
    -- Without a digit there are zero and one, which are not in the interval before the turn.
    cases m with
    | zero =>
      rw [pow_zero, div_one]
      rintro ⟨hN, hN'⟩
      rcases Int.lt_or_le 0 N with hpos | hneg
      · refine hupper (Below.le_trans ?_ hN')
        exact_mod_cast hpos
      · refine hlower ?_
        have hcast : (N : ℚ) ≤ 0 := by exact_mod_cast hneg
        exact (below_iff_of_sub one_pos (by ring)).1 (hN.trans_le hcast)
    | succ m =>
      rcases generate_cases hs ok fuel with ⟨-, d, hdigits, -⟩ | ⟨hnotlow, hnothigh, hdigits⟩
      · rw [hdigits, some_inj] at h
        rw [← h] at hm
        exact absurd hm (by simp)
      rw [hdigits, map_eq_some_iff] at h
      obtain ⟨rest, hrest, rfl⟩ := h
      have hstep :=
        ih (zero_lt_of_lt (next_r_lt hs)) hnotlow hnothigh hrest m (lt_of_succ_lt_succ hm)
        (N - st.digit * 10 ^ m)
      have hcandidate : ((N - st.digit * 10 ^ m : ℤ) : ℚ) / 10 ^ m =
          N / 10 ^ (m + 1) * 10 - st.digit := by
        rw [pow_succ]
        push_cast
        field_simp
      rw [hcandidate, hfraction, next_lowGap, next_highGap] at hstep
      rintro ⟨hN, hN'⟩
      refine hstep ⟨?_, ?_⟩
      · exact (below_iff_of_sub (c := 10) (by norm_num) (by ring)).1 hN
      · exact (below_iff_of_sub (c := 10) (by norm_num) (by ring)).1 hN'

theorem minimal_of_state (hst : st.Is (x / 10 ^ k) (low / 10 ^ k) (high / 10 ^ k))
    (hlower : ¬Below ok x low) (hupper : ¬Below ok 1 (st.fraction + st.highGap))
    (h : generate ok ok fuel st = some digits) :
    ∀ m < digits.length, ∀ N : ℤ,
      ¬(Below ok (x - low) (N * 10 ^ (k - m)) ∧ Below ok (N * 10 ^ (k - m)) (x + high)) := by
  intro m hm N
  have hpow := ten_zpow_pos k
  have hlower' : ¬Below ok st.fraction st.lowGap := by
    rw [hst.fraction, hst.lowGap]
    exact mt (below_iff_of_sub hpow (by field_simp)).1 hlower
  have hminimal := generate_minimal hst.s_pos hlower' hupper h m hm N
  rw [hst.fraction, hst.lowGap, hst.highGap] at hminimal
  rw [decimal_eq]
  rintro ⟨hN, hN'⟩
  refine hminimal ⟨?_, ?_⟩
  · exact (below_iff_of_sub hpow (by field_simp)).2 hN
  · exact (below_iff_of_sub hpow (by field_simp)).2 hN'

/-- A decimal in the interval has no fewer digits, whatever its exponent: where it is less than the
power of ten of the first digit, this power is in the interval, and one digit is enough. -/
theorem length_le_of_hasDigits {m : ℕ} (hexp : IsExponent ok (x + high) k)
    (hlower : ¬Below ok x low) (hminimal : ∀ m < digits.length, ∀ N : ℤ,
      ¬(Below ok (x - low) (N * 10 ^ (k - m)) ∧ Below ok (N * 10 ^ (k - m)) (x + high)))
    (hy : HasDigits m y) (hlow : Below ok (x - low) y) (hhigh : Below ok y (x + high)) :
    digits.length ≤ m := by
  by_contra hlt
  rw [not_le] at hlt
  obtain ⟨N, j, hN, rfl⟩ := hy
  rcases Int.lt_or_le j (k - m) with hj | hj
  · have hpos : N ≠ 0 := by
      rintro rfl
      rw [cast_zero, zero_mul] at hlow
      exact hlower ((below_iff_of_sub one_pos (by ring)).1 hlow)
    have hm : 1 ≤ m := one_le_iff_ne_zero.2 fun h0 => hpos (by rw [h0] at hN; omega)
    have hle : (N : ℚ) * 10 ^ j ≤ 10 ^ (k - 1) := by
      have hlt' : (N : ℚ) < 10 ^ m := by exact_mod_cast hN
      calc (N : ℚ) * 10 ^ j ≤ 10 ^ m * 10 ^ j :=
        mul_le_mul_of_nonneg_right hlt'.le (ten_zpow_pos j).le
        _ = 10 ^ ((m : ℤ) + j) := by rw [zpow_add₀ (by norm_num), zpow_natCast]
        _ ≤ 10 ^ (k - 1) := zpow_le_zpow_right₀ (by norm_num) (by omega)
    refine hminimal 1 (by omega) 1 ?_
    rw [Int.cast_one, one_mul, cast_one]
    exact ⟨hlow.trans_le hle, hexp.2⟩
  · obtain ⟨t, ht⟩ := Int.eq_ofNat_of_zero_le (sub_nonneg.2 hj)
    have hmultiple : (N : ℚ) * 10 ^ j = ((N * 10 ^ t : ℕ) : ℤ) * 10 ^ (k - m) := by
      rw [show j = t + (k - m) by omega, zpow_add₀ (by norm_num), zpow_natCast]
      push_cast
      ring
    rw [hmultiple] at hlow hhigh
    exact hminimal m hlt _ ⟨hlow, hhigh⟩

/-! ## The interval of the algorithm -/

variable (type : FloatType)

/-- The interval that digits are generated in, of the fraction that is moved to the left. -/
def InAlignedInterval (bits : FloatBits type) (y : ℚ) : Prop :=
  ∃ f e, leftAligned type bits = some (f, e) ∧
    Below (f % 2 == 0) (f * 2 ^ e - lowGapOf type f e) y ∧ Below (f % 2 == 0) y (upperEnd f e)

/-- No decimal of fewer digits is in the rounding interval. -/
def PrintsShortest (bits : FloatBits type) (est : ℤ) : Prop :=
  ∃ k digits, percentFlonumToDigits type bits est = some (k, digits) ∧
    ∀ m y, HasDigits m y → InRoundingInterval type.format (ordinal type bits) y → digits.length ≤ m

theorem not_below_lowGap (hf : 1 ≤ f) (e : ℤ) (ok : Bool) :
    ¬Below ok (f * 2 ^ e) (lowGapOf type f e) := by
  intro h
  have hle := h.le.trans (lowGapOf_le type f e)
  have hpow : (0 : ℚ) < 2 ^ e := zpow_pos two_pos e
  have hcast : (1 : ℚ) ≤ f := by exact_mod_cast hf
  have hmul := mul_le_mul_of_nonneg_right hcast hpow.le
  linarith

variable {bits : FloatBits type}

theorem one_le_of_leftAligned {e : ℤ} (hfinite : IsFinite type bits)
    (hb : ordinal type bits ≠ 0) (h : leftAligned type bits = some (f, e)) : 1 ≤ f := by
  obtain ⟨f', e', haligned, hvalue, -, -⟩ := aligned type hfinite hb
  obtain ⟨rfl, rfl⟩ := Prod.mk.inj (some_inj.1 (h.symm.trans haligned))
  refine one_le_iff_ne_zero.2 ?_
  rintro rfl
  have hpos := value_strictMono type.format (Nat.pos_of_ne_zero hb)
  have hzero : type.format.value 0 = 0 := by
    cases type <;> simp [Format.value, Format.significand, Format.field, Format.fraction]
  rw [hvalue, hzero, cast_zero, zero_mul] at hpos
  exact lt_irrefl _ hpos

theorem percentFlonumToDigits_minimal (hfinite : IsFinite type bits)
    (hb : ordinal type bits ≠ 0) (hest : ScaleEstimate type bits est) :
    ∃ k digits, percentFlonumToDigits type bits est = some (k, digits) ∧
      ∀ m y, HasDigits m y → InAlignedInterval type bits y → digits.length ≤ m := by
  obtain ⟨f, e, haligned, -, he, -⟩ := aligned type hfinite hb
  obtain ⟨hmin, hmax, hest⟩ := hest
  obtain ⟨st, k, hfree, hk, hst, hupper⟩ := freeFormat_state type he hmin hmax (hest f e haligned)
  obtain ⟨digits, hdigits, -⟩ := generate_returns hst hupper
  have hlower :=
    not_below_lowGap type (one_le_of_leftAligned type hfinite hb haligned) e (f % 2 == 0)
  refine ⟨k, digits, ?_, fun m y hy hin => ?_⟩
  · unfold percentFlonumToDigits
    rw [haligned, bind_eq_bind, bind_some]
    dsimp only
    rw [hfree, hdigits]
    rfl
  · obtain ⟨f', e', haligned', hlow, hhigh⟩ := hin
    obtain ⟨rfl, rfl⟩ := Prod.mk.inj (some_inj.1 (haligned.symm.trans haligned'))
    exact length_le_of_hasDigits hk hlower
      (minimal_of_state hst hlower hupper hdigits) hy hlow hhigh

/-! ## Floats with an exponent field -/

theorem ulp_le_lowGapOf {b : ℕ} (hfield : type.format.field b ≠ 0)
    (hne : b ≠ 2 ^ (type.digits - 1)) :
    type.format.ulp (b - 1) / 2 ≤ lowGapOf type (type.format.significand b)
      (type.format.exponent b) := by
  have hulp : 0 < type.format.ulp (b - 1) := ulp_pos _ _
  rcases lowGapOf_cases type hfield with h | ⟨h, -⟩ | ⟨-, h⟩
  · rw [h]
  · exact absurd h hne
  · rw [h]
    linarith

theorem inAlignedInterval_of_field (hfinite : IsFinite type bits)
    (hfield : type.format.field (ordinal type bits) ≠ 0)
    (hne : ordinal type bits ≠ 2 ^ (type.digits - 1)) {y : ℚ}
    (h : InRoundingInterval type.format (ordinal type bits) y) : InAlignedInterval type bits y := by
  have hb : 0 < ordinal type bits :=
    Nat.pos_of_ne_zero fun h0 => hfield (by rw [h0, Format.field, Nat.zero_div])
  obtain ⟨hlow, hhigh⟩ := (inRoundingInterval_iff hb).1 h
  have hgap := ulp_le_lowGapOf type hfield hne
  refine ⟨_, _, leftAligned_normal type hfinite hfield, Below.le_trans ?_ hlow, hhigh⟩
  rw [Format.value, Format.ulp]
  linarith

theorem least_is {c a N : ℕ} : (⟨2 * N * 10 ^ c, 2 ^ (a + 1), 10 ^ c, 10 ^ c⟩ : Scaled).Is
    (N * 2 ^ (-(a : ℤ)) / 10 ^ (-(c : ℤ))) (2 ^ (-(a : ℤ)) / 2 / 10 ^ (-(c : ℤ)))
      (2 ^ (-(a : ℤ)) / 2 / 10 ^ (-(c : ℤ))) := by
  have hgap : ((10 ^ c : ℕ) : ℚ) / (2 ^ (a + 1) : ℕ) = 2 ^ (-(a : ℤ)) / 2 / 10 ^ (-(c : ℤ)) := by
    rw [zpow_neg, zpow_neg, zpow_natCast, zpow_natCast, pow_succ]
    push_cast
    field_simp
  refine ⟨Nat.two_pow_pos _, Nat.pow_pos (by norm_num), ?_, hgap, hgap⟩
  rw [Scaled.fraction, zpow_neg, zpow_neg, zpow_natCast, zpow_natCast, pow_succ]
  push_cast
  field_simp

theorem least_shortest (hfinite : IsFinite type bits)
    (hb : ordinal type bits = 2 ^ (type.digits - 1)) (hest : ScaleEstimate type bits est) :
    PrintsShortest type bits est := by
  have hj : type.digits - 1 ≤ type.digits := sub_le _ _
  have hdouble : 2 * 2 ^ (type.digits - 1) = 2 ^ type.digits := by cases type <;> decide
  have hfields : type.format.field (2 ^ (type.digits - 1)) = 1 ∧
    type.format.field (2 ^ (type.digits - 1) - 1) = 0 ∧
      type.format.significand (2 ^ (type.digits - 1)) = 2 ^ (type.digits - 1) := by
      cases type <;> decide
  obtain ⟨hfield, hfield', hsignificand⟩ := hfields
  have hscale : type.subnormalExponent = -(smallScale type (type.digits - 1) : ℤ) := by
    cases type <;> rfl
  have hexp : type.format.exponent (2 ^ (type.digits - 1)) =
      -smallScale type (type.digits - 1) := by
    rw [Format.exponent, format_minExponent, hfield, ← hscale]
    exact add_zero _
  have hexp' : type.format.exponent (2 ^ (type.digits - 1) - 1) =
      -smallScale type (type.digits - 1) := by
    rw [Format.exponent, format_minExponent, hfield', ← hscale]
    exact add_zero _
  have haligned := leftAligned_normal type hfinite (by rw [hb, hfield]; decide)
  rw [hb, hexp, hsignificand] at haligned
  obtain ⟨k, digits, hdigits, -⟩ :=
    percentFlonumToDigits_minimal type hfinite (hb ▸ (Nat.two_pow_pos _).ne') hest
  have hfree : freeFormat type (2 ^ (type.digits - 1)) (-smallScale type (type.digits - 1)) est =
      some (k, digits) := by
    rw [← hdigits, percentFlonumToDigits, haligned]
    rfl
  obtain ⟨-, -, hest⟩ := hest
  -- The exponent is known, and the digits are those of the table of two estimates.
  obtain ⟨δ, hδ, rfl⟩ := small_estimate type hj (hest _ _ haligned)
  have hcheck := least_check type δ hδ
  rw [hfree, map_some, eq_comm, map_eq_some_iff, ← hdouble] at hcheck
  obtain ⟨wide, hwide, hlength⟩ := hcheck
  have hk := small_isExponent type hj
  generalize smallExponent type (type.digits - 1) = c at *
  generalize smallScale type (type.digits - 1) = a at *
  have hst := least_is (c := c) (a := a) (N := 2 ^ (type.digits - 1))
  have hupper :
    ¬Below true 1
    ((⟨2 * 2 ^ (type.digits - 1) * 10 ^ c, 2 ^ (a + 1), 10 ^ c, 10 ^ c⟩ : Scaled).fraction +
      (⟨2 * 2 ^ (type.digits - 1) * 10 ^ c, 2 ^ (a + 1), 10 ^ c, 10 ^ c⟩ : Scaled).highGap) := by
    rw [hst.fraction, hst.highGap]
    refine mt (below_iff_of_sub (ten_zpow_pos (-(c : ℤ))) ?_).1 hk.1
    unfold upperEnd
    field_simp
  have hlower :
      ¬Below true ((2 ^ (type.digits - 1) : ℕ) * 2 ^ (-(a : ℤ)) : ℚ) (2 ^ (-(a : ℤ)) / 2) := by
    intro h
    have hpos : (0 : ℚ) < 2 ^ (-(a : ℤ)) := zpow_pos two_pos _
    have hone : (1 : ℚ) ≤ (2 ^ (type.digits - 1) : ℕ) := by exact_mod_cast Nat.one_le_two_pow
    have hmul := mul_le_mul_of_nonneg_right hone hpos.le
    linarith [h.le]
  refine ⟨k, digits, hdigits, fun m y hy hin => ?_⟩
  rw [hb, inRoundingInterval_iff (Nat.two_pow_pos _), Format.value, Format.ulp, Format.ulp, hexp,
    hexp', hsignificand] at hin
  rw [← hlength]
  exact length_le_of_hasDigits hk hlower (minimal_of_state hst hlower hupper hwide) hy
    (even_hiddenBit type ▸ hin.1) (even_hiddenBit type ▸ hin.2)

/-! ## The fewest digits of a float -/

/-- The digits of a float with an exponent field are the fewest. -/
theorem flonum_shortest (bits : FloatBits type) (est : ℤ) (hfinite : IsFinite type bits)
    (hfield : type.format.field (ordinal type bits) ≠ 0) (hest : ScaleEstimate type bits est) :
    PrintsShortest type bits est := by
  have hb : ordinal type bits ≠ 0 := fun h0 => hfield (by rw [h0, Format.field, Nat.zero_div])
  by_cases hleast : ordinal type bits = 2 ^ (type.digits - 1)
  · exact least_shortest type hfinite hleast hest
  · obtain ⟨k, digits, hdigits, hminimal⟩ := percentFlonumToDigits_minimal type hfinite hb hest
    exact ⟨k, digits, hdigits, fun m y hy hin =>
      hminimal m y hy (inAlignedInterval_of_field type hfinite hfield hleast hin)⟩

theorem scaleEstimate_pi : ScaleEstimate .singleFloat (0x40490FDB#32) 1 := by
  refine scaleEstimate_of .singleFloat (by decide) (by decide) (by decide :
    leftAligned .singleFloat (0x40490FDB#32) = some (13176795, -22)) ⟨?_, ?_⟩
  · show ¬(10 : ℚ) ^ (1 : ℤ) < ((13176795 : ℕ) : ℚ) * 2 ^ (-22 : ℤ) + 2 ^ (-22 : ℤ) / 2
    norm_num
  · show (10 : ℚ) ^ (1 - 1 : ℤ) < ((13176795 : ℕ) : ℚ) * 2 ^ (-22 : ℤ) + 2 ^ (-22 : ℤ) / 2
    norm_num

/-- The single float next to pi is printed as 3.1415927, and no decimal of seven digits is read as
it. -/
theorem flonum_shortest_pi :
    percentFlonumToDigits .singleFloat (0x40490FDB#32) 1 = some (1, [3, 1, 4, 1, 5, 9, 2, 7]) ∧
      PrintsShortest .singleFloat (0x40490FDB#32) 1 :=
  ⟨by decide, flonum_shortest .singleFloat (0x40490FDB#32) 1 (by unfold IsFinite; decide)
    (by decide) scaleEstimate_pi⟩

theorem scaleEstimate_leastPositive : ScaleEstimate .doubleFloat (1#64) (-323) := by
  refine scaleEstimate_of .doubleFloat (by decide) (by decide) (by decide :
    leftAligned .doubleFloat (1#64) = some (2 ^ 52, -1126)) ?_
  obtain ⟨-, hbelow, hupto, -⟩ := leastPositive_check
  exact isExponent_of_nat (a := 1126) (c := 323) hbelow hupto

/-- The least positive float is printed with seventeen digits, and one is enough. -/
theorem flonum_shortest_leastPositive :
    percentFlonumToDigits .doubleFloat (1#64)
      (-323) = some (-323, [4, 9, 4, 0, 6, 5, 6, 4, 5, 8, 4, 1, 2, 4, 6, 5, 4]) ∧
      HasDigits 1 (5 * 10 ^ (-324 : ℤ)) ∧
      InRoundingInterval FloatType.doubleFloat.format (ordinal .doubleFloat (1#64))
        (5 * 10 ^ (-324 : ℤ)) ∧
      ¬∀ type (bits : FloatBits type) est, IsFinite type bits → ordinal type bits ≠ 0 →
        ScaleEstimate type bits est → PrintsShortest type bits est := by
  obtain ⟨hdigits, -, -, hlow324, hhigh324⟩ := leastPositive_check
  have hone : HasDigits 1 (5 * 10 ^ (-324 : ℤ)) := ⟨5, -324, by decide, rfl⟩
  have hin : InRoundingInterval FloatType.doubleFloat.format (ordinal .doubleFloat (1#64))
      (5 * 10 ^ (-324 : ℤ)) := by
    have hordinal : ordinal .doubleFloat (1#64) = 1 := by decide
    have hone : FloatType.doubleFloat.format.significand 1 = 1 := by decide
    have hexp : FloatType.doubleFloat.format.exponent 1 = -1074 ∧
        FloatType.doubleFloat.format.exponent 0 = -1074 := by decide
    rw [hordinal, inRoundingInterval_iff (by decide), Format.value, Format.ulp, Format.ulp, hexp.1,
      show FloatType.doubleFloat.format.exponent (1 - 1) = -1074 from hexp.2, hone]
    have hlow : (10 : ℚ) ^ 324 < 10 * 2 ^ 1074 := by exact_mod_cast hlow324
    have hhigh : (10 : ℚ) * 2 ^ 1074 < 3 * 10 ^ 324 := by exact_mod_cast hhigh324
    rw [zpow_neg, zpow_neg, zpow_ofNat, zpow_ofNat]
    have htwo : (0 : ℚ) < 2 ^ 1074 := by positivity
    have hten : (0 : ℚ) < 10 ^ 324 := by positivity
    generalize (2 : ℚ) ^ 1074 = two at *
    generalize (10 : ℚ) ^ 324 = ten at *
    constructor
    · show ((1 : ℕ) * two⁻¹ - two⁻¹ / 2 : ℚ) < 5 * ten⁻¹
      rw [cast_one]
      field_simp
      linarith
    · show 5 * ten⁻¹ < ((1 : ℕ) * two⁻¹ + two⁻¹ / 2 : ℚ)
      rw [cast_one]
      field_simp
      linarith
  refine ⟨hdigits, hone, hin, fun h => ?_⟩
  obtain ⟨k, digits, hdigits', hshortest⟩ :=
    h .doubleFloat (1#64) (-323) (by unfold IsFinite; decide)
      (by decide) scaleEstimate_leastPositive
  obtain ⟨rfl, rfl⟩ := Prod.mk.inj (some_inj.1 (hdigits.symm.trans hdigits'))
  exact absurd (hshortest 1 _ hone hin) (by decide)

end Sbcl.Printer
