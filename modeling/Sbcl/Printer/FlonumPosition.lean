import Sbcl.Printer.FlonumNearest

/-!
# The digits of a float down to a position

* `generateP_spec` : the loop with rational distances is the one with integers, of a common
  denominator;
* `generate_length` : it is over where the distances are a half of the unit;
* `scaleUp_spec`, `scaleDown_spec`, `scaleP_spec` : the exponent, which is the position itself for a
  float that is rounded to zero;
* `gaps_le` : the distances of the algorithm are not more than the halves of the gaps to the
  neighbours;
* `flonum_position` : the digits of a float down to a position.
-/

namespace Sbcl.Printer

open BinaryFloat Numeral Option

theorem largest_check (type : FloatType) :
    ((initialScaled type (2 ^ (type.digits - 1)) type.minE).bind fun st =>
      scaleP (2 ^ (type.digits - 1) % 2 == 0) st type.subnormalExponent).all
        (fun result => smallCheck type type.digits result.1 result.2) = true := by
  cases type <;> decide +kernel

variable {ok : Bool} {x low high : ℚ} {digits : List ℕ}

/-! ## Generation -/

variable {fuel : ℕ} {st : Scaled}

theorem generate_length {n : ℕ} (hs : 0 < st.s) (hn : 1 ≤ n) (hlow : 1 / 2 ≤ st.lowGap * 10 ^ n)
    (hhigh : 1 / 2 ≤ st.highGap * 10 ^ n) (h : generate true true fuel st = some digits) :
    digits.length ≤ n := by
  induction fuel generalizing st n digits with
  | zero => exact nomatch h
  | succ fuel ih =>
    rcases generate_cases hs true fuel with ⟨-, d, hdigits, -⟩ | ⟨hnotlow, hnothigh, hdigits⟩
    · rw [hdigits, some_inj] at h
      rw [← h]
      exact hn
    rw [hdigits, map_eq_some_iff] at h
    obtain ⟨rest, hrest, rfl⟩ := h
    have hnotlow' : st.lowGap * 10 < st.next.fraction := by
      rw [← next_lowGap]
      exact not_le.1 hnotlow
    have hnothigh' : st.next.fraction + st.highGap * 10 < 1 := by
      rw [← next_highGap]
      exact not_le.1 hnothigh
    -- After one digit both distances are not a half yet.
    have hn' : n ≠ 1 := by
      rintro rfl
      rw [pow_one] at hlow hhigh
      linarith
    obtain ⟨n, rfl⟩ := Nat.exists_eq_add_of_le' hn
    refine Nat.succ_le_succ (ih (Nat.zero_lt_of_lt (next_r_lt hs)) (by omega) ?_ ?_ hrest)
    · rw [next_lowGap, mul_assoc, ← pow_succ']
      exact hlow
    · rw [next_highGap, mul_assoc, ← pow_succ']
      exact hhigh

theorem generate_ne_nil (hs : 0 < st.s) (h : generate ok ok fuel st = some digits) :
    digits ≠ [] := by
  cases fuel with
  | zero => exact nomatch h
  | succ fuel =>
    rcases generate_cases hs ok fuel with ⟨-, d, hdigits, -⟩ | ⟨-, -, hdigits⟩
    · rw [hdigits, some_inj] at h
      rw [← h]
      exact List.cons_ne_nil _ _
    · rw [hdigits, map_eq_some_iff] at h
      obtain ⟨rest, -, rfl⟩ := h
      exact List.cons_ne_nil _ _

theorem generateP_eq {D : ℕ} (hD : 0 < D) {r s a b : ℕ} {mPlus mMinus : ℚ} (ha : mPlus * D = a)
    (hb : mMinus * D = b) :
    generateP fuel ⟨r, s, mPlus, mMinus, true, true⟩ = generate true true fuel ⟨r * D,
      s * D, a, b⟩ := by
  have hD' : (0 : ℚ) < D := by exact_mod_cast hD
  induction fuel generalizing r mPlus mMinus a b with
  | zero => rfl
  | succ fuel ih =>
    have ha' : mPlus * 10 * D = (a * 10 : ℕ) := by
      rw [mul_right_comm, ha]
      push_cast
      rfl
    have hb' : mMinus * 10 * D = (b * 10 : ℕ) := by
      rw [mul_right_comm, hb]
      push_cast
      rfl
    have hdigit : r * D * 10 / (s * D) = r * 10 / s := by
      rw [Nat.mul_right_comm, Nat.mul_div_mul_right _ _ hD]
    have hrest : r * D * 10 % (s * D) = r * 10 % s * D := by
      rw [Nat.mul_right_comm, Nat.mul_mod_mul_right]
    have hlt {p q : ℚ} : p < q ↔ p * D < q * D := (mul_lt_mul_iff_of_pos_right hD').symm
    have heq {p q : ℚ} : p = q ↔ p * D = q * D := (mul_left_inj' hD'.ne').symm
    unfold generateP generate
    dsimp only
    rw [hdigit, hrest, ih ha' hb']
    have htest1 : ((r * 10 % s : ℕ) : ℚ) < mMinus * 10 ↔ r * 10 % s * D < b * 10 := by
      rw [hlt, hb']
      exact_mod_cast Iff.rfl
    have htest2 : ((r * 10 % s : ℕ) : ℚ) = mMinus * 10 ↔ r * 10 % s * D = b * 10 := by
      rw [heq, hb']
      exact_mod_cast Iff.rfl
    have htest3 : (s : ℚ) < (r * 10 % s : ℕ) + mPlus * 10 ↔ s * D < r * 10 % s * D + a * 10 := by
      rw [hlt, add_mul, ha']
      exact_mod_cast Iff.rfl
    have htest4 : ((r * 10 % s : ℕ) : ℚ) + mPlus * 10 = s ↔ r * 10 % s * D + a * 10 = s * D := by
      rw [heq, add_mul, ha']
      exact_mod_cast Iff.rfl
    have htest5 : r * 10 % s * 2 < s ↔ r * 10 % s * D * 2 < s * D := by
      rw [Nat.mul_right_comm, Nat.mul_lt_mul_right hD]
    simp only [htest1, htest2, htest3, htest4, htest5]

theorem exists_denominator {p q : ℚ} (hp : 0 ≤ p) (hq : 0 ≤ q) : ∃ D a b : ℕ, 0 < D ∧
    p * D = a ∧ q * D = b := by
  have hnum {p : ℚ} (hp : 0 ≤ p) : p * p.den = p.num.toNat := by
    rw [Rat.mul_den_eq_num]
    exact_mod_cast (Int.toNat_of_nonneg (Rat.num_nonneg.2 hp)).symm
  refine ⟨p.den * q.den, p.num.toNat * q.den, q.num.toNat * p.den,
    Nat.mul_pos p.den_pos q.den_pos, ?_, ?_⟩
  · push_cast
    rw [← mul_assoc, hnum hp]
  · push_cast
    rw [mul_comm (p.den : ℚ), ← mul_assoc, hnum hq]

/-- A number with its distances, which are included, and one unit is not less than the lower end of
what the loop starts with. -/
structure PositionScaled.Is (st : PositionScaled) (x low high : ℚ) : Prop where
  s_pos : 0 < st.s
  one_le : 1 ≤ st.mPlus
  nonneg : 0 ≤ st.mMinus
  lowOk : st.lowOk = true
  highOk : st.highOk = true
  fraction : (st.r : ℚ) / st.s = x
  lowGap : st.mMinus / st.s = low
  highGap : st.mPlus / st.s = high

theorem generateP_spec {st : PositionScaled} (hst : st.Is x low high) (hupper : x + high < 1) :
    ∃ digits, generateP (st.s.log2 + 1) st = some digits ∧
      Generated true x low high digits ∧ digits ≠ [] ∧
      ∀ n, 1 ≤ n → 1 / 2 ≤ low * 10 ^ n → 1 / 2 ≤ high * 10 ^ n → digits.length ≤ n := by
  obtain ⟨r, s, mPlus, mMinus, highOk, lowOk⟩ := st
  obtain ⟨hs, hone, hnonneg, hlowOk, hhighOk, rfl, rfl, rfl⟩ := hst
  subst hlowOk hhighOk
  obtain ⟨D, a, b, hD, ha, hb⟩ := exists_denominator (zero_le_one.trans hone) hnonneg
  have hs' : (0 : ℚ) < s := by exact_mod_cast hs
  have hD' : (0 : ℚ) < D := by exact_mod_cast hD
  set st : Scaled := ⟨r * D, s * D, a, b⟩ with hst
  have hfraction : st.fraction = r / s := by
    rw [Scaled.fraction, hst]
    push_cast
    exact mul_div_mul_right _ _ hD'.ne'
  have hlow : st.lowGap = mMinus / s := by
    rw [Scaled.lowGap, hst, ← hb]
    push_cast
    exact mul_div_mul_right _ _ hD'.ne'
  have hhigh : st.highGap = mPlus / s := by
    rw [Scaled.highGap, hst, ← ha]
    push_cast
    exact mul_div_mul_right _ _ hD'.ne'
  have hmPlus : D ≤ a := by
    have h : (D : ℚ) ≤ a := by
      rw [← ha]
      exact le_mul_of_one_le_left hD'.le hone
    exact_mod_cast h
  have hr : st.r < st.s := by
    have hpos : (0 : ℚ) < mPlus / s := div_pos (zero_lt_one.trans_le hone) hs'
    have h := (div_lt_one hs').1 (by linarith : (r : ℚ) / s < 1)
    exact Nat.mul_lt_mul_of_pos_right (by exact_mod_cast h) hD
  have hfuel : st.s < st.mPlus * 10 ^ (s.log2 + 1) :=
    calc s * D < 2 ^ (s.log2 + 1) * D := Nat.mul_lt_mul_of_pos_right Nat.lt_log2_self hD
      _ ≤ 10 ^ (s.log2 + 1) * a := Nat.mul_le_mul (Nat.pow_le_pow_left (by norm_num) _) hmPlus
      _ = a * 10 ^ (s.log2 + 1) := Nat.mul_comm _ _
  have hnot : ¬Below true 1 (st.fraction + st.highGap) := by
    rw [hfraction, hhigh]
    exact not_le.2 hupper
  obtain ⟨digits, hdigits, hgenerated⟩ := generate_spec hr (hD.trans_le hmPlus) hfuel hnot
  rw [hfraction, hlow, hhigh] at hgenerated
  refine ⟨digits, (generateP_eq hD ha hb).trans hdigits, hgenerated,
    generate_ne_nil (Nat.mul_pos hs hD) hdigits, fun n hn hn' hn'' => ?_⟩
  rw [← hlow] at hn'
  rw [← hhigh] at hn''
  exact generate_length (Nat.mul_pos hs hD) hn hn' hn'' hdigits

/-! ## The exponent -/

variable {k : ℤ}

theorem scaleUp_spec {rm : ℚ} {s : ℕ} (hfuel : rm < s * 10 ^ fuel) :
    ∃ n : ℕ, scaleUp true rm (fuel + 1) k s = some (k + n, s * 10 ^ n) ∧ rm < s * 10 ^ n ∧
      (n ≠ 0 → s * 10 ^ ((n : ℤ) - 1) ≤ rm) := by
  induction fuel generalizing k s with
  | zero =>
    rw [pow_zero, mul_one] at hfuel
    refine ⟨0, ?_, by rwa [pow_zero, mul_one], fun h => absurd rfl h⟩
    unfold scaleUp
    rw [if_neg, Nat.cast_zero, add_zero, pow_zero, Nat.mul_one]
    rintro (h | ⟨-, h⟩)
    · exact lt_asymm h hfuel
    · exact hfuel.ne h
  | succ fuel ih =>
    unfold scaleUp
    by_cases h : (s : ℚ) ≤ rm
    · obtain ⟨n, hn, hlt, hle⟩ := ih (k := k + 1) (s := s * 10) (by
        push_cast
        rwa [mul_assoc, ← pow_succ'])
      push_cast at hlt hle
      refine ⟨n + 1, ?_, ?_, fun _ => ?_⟩
      · rw [if_pos, hn, Nat.mul_assoc, ← pow_succ', Nat.cast_succ, add_assoc, add_comm (1 : ℤ)]
        rcases h.lt_or_eq with h | h
        · exact .inl h
        · exact .inr ⟨rfl, h.symm⟩
      · rwa [mul_assoc, ← pow_succ'] at hlt
      rw [Nat.cast_succ, add_sub_cancel_right, zpow_natCast]
      rcases Nat.eq_zero_or_pos n with rfl | hpos
      · rwa [pow_zero, mul_one]
      · have hle := hle hpos.ne'
        rwa [mul_assoc, ← zpow_one_add₀ (by norm_num), add_sub_cancel, zpow_natCast] at hle
    · refine ⟨0, ?_, by rw [pow_zero, mul_one]; exact not_le.1 h, fun h => absurd rfl h⟩
      rw [if_neg, Nat.cast_zero, add_zero, pow_zero, Nat.mul_one]
      rintro (h' | ⟨-, h'⟩)
      · exact h h'.le
      · exact h h'.ge

/-- What the second loop makes in a number of turns. -/
def PositionScaled.shift (st : PositionScaled) (n : ℕ) : PositionScaled :=
  { st with r := st.r * 10 ^ n, mPlus := st.mPlus * 10 ^ n, mMinus := st.mMinus * 10 ^ n }

theorem scaleDown_spec {st : PositionScaled} (hok : st.highOk = true)
    (hupper : st.r + st.mPlus < st.s) (hfuel : (st.s : ℚ) ≤ (st.r + st.mPlus) * 10 ^ (fuel + 1)) :
    ∃ n : ℕ, scaleDown (fuel + 1) k st = some (k - n, st.shift n) ∧
      (st.r + st.mPlus) * 10 ^ n < st.s ∧
      (n ≠ 0 → st.mMinus < st.r) ∧
      (st.mMinus < st.r → (st.s : ℚ) ≤ (st.r + st.mPlus) * 10 ^ (n + 1)) := by
  have hshift : st.shift 0 = st := by simp [PositionScaled.shift]
  induction fuel generalizing k st with
  | zero =>
    refine ⟨0, ?_, by rwa [pow_zero, mul_one], fun h => absurd rfl h, fun _ => hfuel⟩
    rw [zero_add, pow_one] at hfuel
    unfold scaleDown
    dsimp only
    rw [if_neg, Nat.cast_zero, sub_zero, hshift]
    rintro ⟨-, h | ⟨h, -⟩⟩
    · exact not_lt.2 hfuel h
    · exact h hok
  | succ fuel ih =>
    unfold scaleDown
    by_cases h : st.mMinus < st.r ∧ (st.r + st.mPlus) * 10 < st.s
    · obtain ⟨hlow, hlt⟩ := h
      obtain ⟨n, hn, hupper', -, hlast⟩ := @ih (k - 1)
        { st with r := st.r * 10, mPlus := st.mPlus * 10, mMinus := st.mMinus * 10 } hok (by
          push_cast
          linarith) (by
          push_cast
          rw [← add_mul, mul_assoc, ← pow_succ']
          exact hfuel) (by simp [PositionScaled.shift])
      push_cast at hupper' hlast
      rw [← add_mul, mul_assoc, ← pow_succ'] at hupper'
      rw [← add_mul, mul_assoc, ← pow_succ'] at hlast
      refine ⟨n + 1, ?_, hupper', fun _ => hlow, fun _ => hlast (by linarith)⟩
      rw [if_pos ⟨hlow, .inl hlt⟩, hn, Nat.cast_succ, sub_sub, add_comm (1 : ℤ)]
      unfold PositionScaled.shift
      rw [Nat.mul_assoc, mul_assoc, mul_assoc, ← pow_succ', ← pow_succ']
    · refine ⟨0, ?_, by rwa [pow_zero, mul_one], fun h => absurd rfl h, fun hlow => ?_⟩
      · rw [if_neg, Nat.cast_zero, sub_zero, hshift]
        rintro ⟨hlow, hlt | ⟨hnot, -⟩⟩
        · exact h ⟨hlow, hlt⟩
        · exact hnot hok
      · rw [zero_add, pow_one]
        exact not_lt.1 fun hlt => h ⟨hlow, hlt⟩

/-! ## From the number to the digits -/

theorem widen_eq (st : PositionScaled) (p : ℤ) : widen st p =
    ⟨st.r, st.s, max st.mPlus (st.s * (10 : ℚ) ^ p / 2), max st.mMinus (st.s * (10 : ℚ) ^ p / 2),
      true, true⟩ := by
  unfold widen
  dsimp only
  rw [if_pos (le_max_left _ _)]
  rw [if_pos (le_max_left _ _)]

theorem quarter_check : percentFlonumToDigitsP .doubleFloat (0x3FD0000000000000#64) 0 =
    some (0, [3]) := by
  decide +kernel

/-- The digits of a number with its distances, and the exponent: of the upper end, or zero for a
number that is rounded to zero, unless the upper end is above. -/
structure PositionDigits (x low high : ℚ) (k : ℤ) (digits : List ℕ) : Prop where
  ne_nil : digits ≠ []
  generated : Generated true (x / 10 ^ k) (low / 10 ^ k) (high / 10 ^ k) digits
  upper : x + high < 10 ^ k
  lower_of_neg : k < 0 → low < x
  lower : low < x → 10 ^ (k - 1) ≤ x + high
  lower_of_pos : 0 < k → 10 ^ (k - 1) ≤ x + high
  length_le : ∀ n : ℕ, 1 ≤ n → 10 ^ (k - n) ≤ 2 * low → 10 ^ (k - n) ≤ 2 * high → digits.length ≤ n

theorem scaleP_spec (ok : Bool) (h : st.Is x low high) (p : ℤ) :
    ∃ k digits, scaleP ok st p = some (k, digits) ∧
      PositionDigits x (max low (10 ^ p / 2)) (max high (10 ^ p / 2)) k digits := by
  obtain ⟨hs, hpos, hfraction, hlow, hhigh⟩ := h
  obtain ⟨r, s, mPlus, mMinus⟩ := st
  have hs' : (0 : ℚ) < s := by exact_mod_cast hs
  rw [Scaled.fraction, div_eq_iff hs'.ne'] at hfraction
  rw [Scaled.lowGap, div_eq_iff hs'.ne'] at hlow
  rw [Scaled.highGap, div_eq_iff hs'.ne'] at hhigh
  set low' := max low (10 ^ p / 2) with hlow'
  set high' := max high (10 ^ p / 2) with hhigh'
  have hhalf : (s : ℚ) * 10 ^ p / 2 = 10 ^ p / 2 * s := by ring
  have hminus : max (mMinus : ℚ) (s * (10 : ℚ) ^ p / 2) = low' * s := by
    rw [hlow, hhalf, hlow', max_mul_of_nonneg _ _ hs'.le]
  have hplus : max (mPlus : ℚ) (s * (10 : ℚ) ^ p / 2) = high' * s := by
    rw [hhigh, hhalf, hhigh', max_mul_of_nonneg _ _ hs'.le]
  have hone : 1 ≤ high' * s := by
    rw [← hplus]
    exact le_max_of_le_left (by exact_mod_cast hpos)
  have hnonneg : 0 ≤ low' * s := by
    rw [← hminus]
    exact le_max_of_le_left (Nat.cast_nonneg _)
  -- The first loop, from an exponent of zero.
  have hfuel : (r : ℚ) + high' * s < s * 10 ^ (⌈(r : ℚ) + high' * s⌉₊.log2 + 1) := by
    have hlt : ⌈(r : ℚ) + high' * s⌉₊ < s * 10 ^ (⌈(r : ℚ) + high' * s⌉₊.log2 + 1) :=
      calc _ < 2 ^ (⌈(r : ℚ) + high' * s⌉₊.log2 + 1) := Nat.lt_log2_self
        _ ≤ 10 ^ (⌈(r : ℚ) + high' * s⌉₊.log2 + 1) := Nat.pow_le_pow_left (by norm_num) _
        _ ≤ s * 10 ^ (⌈(r : ℚ) + high' * s⌉₊.log2 + 1) := Nat.le_mul_of_pos_left _ hs
    exact (Nat.le_ceil _).trans_lt (by exact_mod_cast hlt)
  obtain ⟨n, hn, hupper, hbelow⟩ := scaleUp_spec (k := 0) hfuel
  rw [zero_add] at hn
  -- The second loop, down from there.
  set st : PositionScaled := ⟨r, s * 10 ^ n, high' * s, low' * s, true, true⟩ with hst
  have hdown : ((s * 10 ^ n : ℕ) : ℚ) ≤ (r + high' * s) * 10 ^ ((s * 10 ^ n).log2 + 1 + 1) := by
    have hle : s * 10 ^ n ≤ 10 ^ ((s * 10 ^ n).log2 + 1 + 1) :=
      calc s * 10 ^ n ≤ 2 ^ ((s * 10 ^ n).log2 + 1) := Nat.lt_log2_self.le
        _ ≤ 10 ^ ((s * 10 ^ n).log2 + 1) := Nat.pow_le_pow_left (by norm_num) _
        _ ≤ 10 ^ ((s * 10 ^ n).log2 + 1 + 1) := Nat.pow_le_pow_right (by norm_num) (Nat.le_succ _)
    have hcast : ((s * 10 ^ n : ℕ) : ℚ) ≤ 10 ^ ((s * 10 ^ n).log2 + 1 + 1) := by exact_mod_cast hle
    exact hcast.trans
      (le_mul_of_one_le_left (by positivity) (by linarith [(Nat.cast_nonneg r : (0 : ℚ) ≤ r)]))
  obtain ⟨m, hm, hupper', hmoved, hlast⟩ := @scaleDown_spec ((s * 10 ^ n).log2 + 1) n st rfl
    (by push_cast [hst]; exact hupper) hdown
  push_cast [hst] at hupper' hmoved hlast
  set k : ℤ := n - m with hk
  have hpow : (10 : ℚ) ^ k * 10 ^ m = 10 ^ n := by
    rw [hk, ← zpow_natCast, ← zpow_natCast, ← zpow_add₀ (by norm_num), sub_add_cancel]
  have hm' : (0 : ℚ) < 10 ^ m := by positivity
  have hk' := ten_zpow_pos k
  have hscale (y : ℚ) : y * s * 10 ^ m / ((s * 10 ^ n : ℕ) : ℚ) = y / 10 ^ k := by
    push_cast
    rw [← hpow]
    field_simp
  rw [hfraction, ← add_mul] at hupper' hlast hbelow
  have hupper'' : x + high' < 10 ^ k := by
    rw [← div_lt_one hk', ← hscale, div_lt_one (by positivity)]
    push_cast
    exact hupper'
  have hmoved' : m ≠ 0 → low' < x := fun h => lt_of_mul_lt_mul_right (hfraction ▸ hmoved h) hs'.le
  have hstate : (st.shift m).Is (x / 10 ^ k) (low' / 10 ^ k) (high' / 10 ^ k) := by
    refine ⟨Nat.mul_pos hs (Nat.pow_pos (by norm_num)), ?_, mul_nonneg hnonneg hm'.le, rfl, rfl, ?_,
      hscale _, hscale _⟩
    · exact one_le_mul_of_one_le_of_one_le hone (one_le_pow₀ (by norm_num))
    · rw [← hscale, ← hfraction]
      show ((r * 10 ^ m : ℕ) : ℚ) / (s * 10 ^ n : ℕ) = _
      rw [Nat.cast_mul, Nat.cast_pow, Nat.cast_ofNat]
  obtain ⟨digits, hdigits, hgenerated, hnil, hlength⟩ := generateP_spec hstate (by
    rw [← add_div, div_lt_one hk']
    exact hupper'')
  refine ⟨k, digits, ?_, hnil, hgenerated, hupper'', fun hneg => hmoved' ?_, fun hlt => ?_,
    fun hpos' => ?_, fun i hi h h' => ?_⟩
  · unfold scaleP
    rw [widen_eq, hminus, hplus, bind_eq_bind]
    dsimp only
    rw [hn, bind_some]
    dsimp only
    rw [bind_eq_bind, hm, bind_some]
    rw [hdigits]
    rfl
  · rintro rfl
    omega
  · have hle := hlast (mul_lt_mul_of_pos_right hlt hs')
    have hle' : (10 : ℚ) ^ k * (10 ^ m * s) ≤ (x + high') * 10 * (10 ^ m * s) :=
      calc (10 : ℚ) ^ k * (10 ^ m * s) = s * 10 ^ n := by rw [← hpow]; ring
        _ ≤ (x + high') * s * 10 ^ (m + 1) := hle
        _ = (x + high') * 10 * (10 ^ m * s) := by rw [pow_succ]; ring
    rw [zpow_sub_one₀ (by norm_num), ← div_eq_mul_inv, div_le_iff₀ (by norm_num)]
    exact le_of_mul_le_mul_right hle' (mul_pos hm' hs')
  · have hle := hbelow (by omega)
    rw [mul_comm] at hle
    exact (zpow_le_zpow_right₀ (by norm_num) (by omega)).trans (le_of_mul_le_mul_right hle hs')
  · have hhalf {y : ℚ} (hy : 10 ^ (k - i) ≤ 2 * y) : 1 / 2 ≤ y / 10 ^ k * 10 ^ i := by
      rw [zpow_sub₀ (by norm_num), zpow_natCast, div_le_iff₀ (by positivity)] at hy
      rw [div_mul_eq_mul_div, le_div_iff₀ hk']
      linarith
    exact hlength i hi (hhalf h) (hhalf h')

theorem PositionDigits.length_position {p : ℤ}
    (h : PositionDigits x (max low (10 ^ p / 2)) (max high (10 ^ p / 2)) k digits)
    (hhigh : high ≤ x) (hpos : 0 < x) :
    if 0 ≤ p ∧ x < 10 ^ p / 2 then k = p ∧ digits.length = 1 else (digits.length : ℤ) ≤ k - p := by
  obtain ⟨hnil, -, hupper, hneg, -, hlower, hlength⟩ := h
  have hten := ten_zpow_pos p
  have hlow' : (10 : ℚ) ^ p / 2 ≤ max low (10 ^ p / 2) := le_max_right _ _
  have hhigh' : (10 : ℚ) ^ p / 2 ≤ max high (10 ^ p / 2) := le_max_right _ _
  have hbound (n : ℕ) (hn : 1 ≤ n) (hle : k - n ≤ p) : digits.length ≤ n := by
    have hpow : (10 : ℚ) ^ (k - n) ≤ 10 ^ p := zpow_le_zpow_right₀ (by norm_num) hle
    exact hlength n hn (by linarith) (by linarith)
  have hone : 1 ≤ digits.length := List.length_pos_iff.2 hnil
  -- A half of the unit is below the upper end.
  have hle : p ≤ k := by
    by_contra hlt
    have hpow : (10 : ℚ) ^ k ≤ 10 ^ (p - 1) := zpow_le_zpow_right₀ (by norm_num) (by omega)
    rw [zpow_sub_one₀ (by norm_num)] at hpow
    linarith
  split
  · rename_i hzero
    obtain ⟨hp, hx⟩ := hzero
    have hk : k = p := by
      refine le_antisymm ?_ hle
      by_contra hlt
      have hpow : (10 : ℚ) ^ p ≤ 10 ^ (k - 1) := zpow_le_zpow_right₀ (by norm_num) (by omega)
      have hlower := hlower (by omega)
      rw [max_eq_right (hhigh.trans hx.le)] at hlower
      linarith
    exact ⟨hk, le_antisymm (hbound 1 le_rfl (by rw [hk]; omega)) hone⟩
  · rename_i hzero
    have hlt : p < k := by
      by_contra hge
      have hk : k = p := le_antisymm (not_lt.1 hge) hle
      rw [hk] at hupper hneg
      have hx : x < 10 ^ p / 2 := by linarith
      have hp : p < 0 := not_le.1 fun hp => hzero ⟨hp, hx⟩
      have := hneg hp
      linarith
    have h := hbound (k - p).toNat (by omega) (by omega)
    omega

/-! ## Floats -/

variable (type : FloatType)

/-- Not further than a half of the unit of the position, or than a half of the gap to the neighbour
on that side. -/
def NearPosition (b : ℕ) (p : ℤ) (y : ℚ) : Prop :=
  (y ≤ type.format.value b →
      type.format.value b - y ≤
        max (10 ^ p / 2) ((type.format.value b - type.format.value (b - 1)) / 2)) ∧
    (type.format.value b ≤ y → y - type.format.value b ≤
      max (10 ^ p / 2) ((type.format.value (b + 1) - type.format.value b) / 2))

theorem gaps_le {bits : FloatBits type} (hfinite : IsFinite type bits)
    (hb : ordinal type bits ≠ 0) :
    ∃ f e, leftAligned type bits = some (f, e) ∧ type.format.value (ordinal type bits) = f * 2 ^ e ∧
      e ≤ 971 ∧ 1 ≤ f ∧ (2 : ℚ) ^ e ≤ type.format.ulp (ordinal type bits) ∧
      (lowGapOf type f e ≤ type.format.ulp (ordinal type bits - 1) / 2 ∨
        (ordinal type bits = 2 ^ type.digits ∧ f = 2 ^ (type.digits - 1) ∧ e = type.minE)) := by
  by_cases hfield : type.format.field (ordinal type bits) = 0
  · obtain ⟨shift, -, hlow, -, haligned⟩ := leftAligned_subnormal type hfield hb
    obtain ⟨hulp, hulp'⟩ := ulp_subnormal type hfield hb
    have hfraction : type.format.fraction (ordinal type bits) = ordinal type bits := by
      have h := field_fraction type.format (ordinal type bits)
      rwa [hfield, Nat.zero_mul, Nat.zero_add] at h
    have hmono : (2 : ℚ) ^ (type.subnormalExponent - shift) ≤ 2 ^ type.subnormalExponent :=
      zpow_le_zpow_right₀ (by norm_num) (by omega)
    have hsubnormal := subnormalExponent_le type
    refine ⟨_, _, haligned, ?_, by omega, (Nat.one_le_two_pow).trans hlow, hulp ▸ hmono, .inl ?_⟩
    · rw [Format.value, Format.significand, if_pos hfield, hfraction, hulp,
        zpow_sub₀ two_ne_zero, zpow_natCast]
      push_cast
      field_simp
    · rw [hulp']
      exact (lowGapOf_le type _ _).trans (div_le_div_of_nonneg_right hmono (by norm_num))
  · have hsignificand : type.format.significand (ordinal type bits) =
        2 ^ (type.digits - 1) + type.format.fraction (ordinal type bits) := by
      rw [Format.significand, if_neg hfield, format_digits]
    refine ⟨_, _, leftAligned_normal type hfinite hfield, rfl,
      exponent_le type hfinite, ?_, le_rfl, ?_⟩
    · rw [hsignificand]
      exact Nat.one_le_two_pow.trans (Nat.le_add_right _ _)
    have hulp := ulp_pos type.format (ordinal type bits - 1)
    rcases lowGapOf_cases type hfield with h | ⟨-, h⟩ | ⟨h, -⟩
    · exact .inl h.le
    · refine .inl ?_
      rw [h]
      linarith
    · refine .inr ⟨h, ?_⟩
      rw [h]
      cases type <;> decide

theorem scaleP_of_small (h : st.Is x low high) {p p' : ℤ} (hlow : (10 : ℚ) ^ p / 2 ≤ low)
    (hhigh : (10 : ℚ) ^ p / 2 ≤ high) (hlow' : (10 : ℚ) ^ p' / 2 ≤ low)
    (hhigh' : (10 : ℚ) ^ p' / 2 ≤ high) : scaleP ok st p = scaleP ok st p' := by
  have hs := h.cast_pos
  have hmul {p : ℤ} {y z : ℚ} (hy : y / st.s = z) (hle : (10 : ℚ) ^ p / 2 ≤ z) :
      max y (st.s * (10 : ℚ) ^ p / 2) = y := by
    rw [← hy, le_div_iff₀ hs] at hle
    exact max_eq_left (by linarith)
  unfold scaleP
  rw [widen_eq, widen_eq, hmul h.lowGap hlow, hmul h.highGap hhigh, hmul h.lowGap hlow',
    hmul h.highGap hhigh']

/-- For this float the lower distance is the whole gap, and where it is more than a half of the unit
of the position, the digits are those of the table. -/
theorem largest_near {b : ℕ} (hb : b = 2 ^ type.digits)
    (hvalue : type.format.value b = (2 ^ (type.digits - 1) : ℕ) * 2 ^ type.minE)
    (hst : initialScaled type (2 ^ (type.digits - 1)) type.minE = some st)
    (his : st.Is x (2 ^ type.minE / 2) (2 ^ type.minE / 2)) {p : ℤ}
    (hp : (10 : ℚ) ^ p / 2 ≤ 2 ^ type.minE / 2)
    (h : scaleP (2 ^ (type.digits - 1) % 2 == 0) st p = some (k, digits)) :
    InRoundingInterval type.format b (decimalValue k digits) := by
  have hsubnormal : (10 : ℚ) ^ type.subnormalExponent / 2 ≤ 2 ^ type.minE / 2 := by
    obtain ⟨m, hm⟩ : ∃ m : ℕ, type.subnormalExponent = -(m : ℤ) := by
      cases type with
      | singleFloat => exact ⟨149, rfl⟩
      | doubleFloat => exact ⟨1074, rfl⟩
    rw [minE_eq, zpow_add_one₀ two_ne_zero, mul_div_cancel_right₀ _ two_ne_zero, hm, zpow_neg,
      zpow_neg, zpow_natCast, zpow_natCast]
    have hle : ((10 : ℚ) ^ m)⁻¹ ≤ (2 ^ m)⁻¹ :=
      inv_anti₀ (by positivity) (pow_le_pow_left₀ (by norm_num) (by norm_num) m)
    have hpos : (0 : ℚ) < (10 ^ m)⁻¹ := by positivity
    linarith
  have hcheck := largest_check type
  rw [hst, bind_some, ← scaleP_of_small his hp hp hsubnormal hsubnormal, h] at hcheck
  rw [show type.minE = -(smallScale type type.digits : ℤ) by cases type <;> rfl, float_eq] at hvalue
  exact (small_spec type le_rfl hb hvalue hcheck).2 rfl

/-- The digits of a finite float that is not zero, down to a position: none is below it, but the one
digit of a float that is rounded to zero at a position above the point; and the decimal is near to
the float. -/
theorem flonum_position (bits : FloatBits type) (p : ℤ) (hfinite : IsFinite type bits)
    (hb : ordinal type bits ≠ 0) :
    ∃ k digits, percentFlonumToDigitsP type bits p = some (k, digits) ∧
      flonumToDigitsP type bits p = some (k, digits.map digitChar) ∧ (∀ d ∈ digits, d < 10) ∧
      NearPosition type (ordinal type bits) p (decimalValue k digits) ∧
      if 0 ≤ p ∧ type.format.value (ordinal type bits) < 10 ^ p / 2 then k = p ∧ digits.length = 1
      else (digits.length : ℤ) ≤ k - p := by
  obtain ⟨f, e, haligned, hvalue, he, hf, hulp, hgap⟩ := gaps_le type hfinite hb
  obtain ⟨st, hst, his⟩ := initialScaled_spec type (f := f) he
  obtain ⟨k, digits, hdigits, hposition⟩ := scaleP_spec (f % 2 == 0) his p
  have hpow : (0 : ℚ) < 2 ^ e := zpow_pos two_pos e
  have hx : (2 : ℚ) ^ e ≤ f * 2 ^ e := le_mul_of_one_le_left hpow.le (by exact_mod_cast hf)
  have hlength := hposition.length_position (by linarith) (by linarith)
  obtain ⟨hlow, hhigh, -⟩ := hposition.generated.decimal
  have hlow : f * 2 ^ e - max (lowGapOf type f e) (10 ^ p / 2) ≤ decimalValue k digits := hlow
  have hhigh : decimalValue k digits ≤ f * 2 ^ e + max (2 ^ e / 2) (10 ^ p / 2) := hhigh
  have hpercent : percentFlonumToDigitsP type bits p = some (k, digits) := by
    unfold percentFlonumToDigitsP
    rw [haligned, bind_eq_bind, bind_some]
    dsimp only
    rw [hst]
    exact hdigits
  refine ⟨k, digits, hpercent, ?_, hposition.generated.digit_lt, ⟨fun _ => ?_, fun _ => ?_⟩,
    hvalue ▸ hlength⟩
  · have hb' : ¬bits.toNat % 2 ^ (type.width - 1) = 0 := hb
    unfold flonumToDigitsP
    rw [if_neg hb', hpercent, bind_eq_bind, bind_some]
    dsimp only
    rw [mapM_digitCharacters hposition.generated.digit_lt]
    rfl
  · have hpred := value_pred type.format (Nat.pos_of_ne_zero hb)
    have hhalf :
      (type.format.value (ordinal type bits) - type.format.value (ordinal type bits - 1)) / 2 =
        type.format.ulp (ordinal type bits - 1) / 2 := by
      rw [hpred]
      ring
    rw [hhalf]
    rcases hgap with hgap | ⟨hlargest, rfl, rfl⟩
    · have hmax := max_le_max hgap (le_refl ((10 : ℚ) ^ p / 2))
      rw [max_comm (type.format.ulp _ / 2)] at hmax
      linarith
    have hgap : lowGapOf type (2 ^ (type.digits - 1)) type.minE = 2 ^ type.minE / 2 :=
      if_neg fun h => h.2 rfl
    rw [hgap] at his hlow
    rcases le_total ((10 : ℚ) ^ p / 2) (2 ^ type.minE / 2) with hp | hp
    · obtain ⟨hin, -⟩ := (inRoundingInterval_iff (Nat.pos_of_ne_zero hb)).1
        (largest_near type hlargest hvalue hst his hp hdigits)
      have hin := hin.le
      have hmax := le_max_right ((10 : ℚ) ^ p / 2) (type.format.ulp (ordinal type bits - 1) / 2)
      linarith
    · rw [max_eq_right hp] at hlow
      have hmax := le_max_left ((10 : ℚ) ^ p / 2) (type.format.ulp (ordinal type bits - 1) / 2)
      linarith
  · rw [value_succ, add_sub_cancel_left, max_comm]
    have hmax := max_le_max (div_le_div_of_nonneg_right hulp (by norm_num : (0 : ℚ) ≤ 2))
      (le_refl ((10 : ℚ) ^ p / 2))
    linarith

theorem flonum_position_third :
    ∃ k digits, percentFlonumToDigitsP .singleFloat (0x3EAAAAAB#32) (-2) = some (k, digits) ∧
      flonumToDigitsP .singleFloat (0x3EAAAAAB#32) (-2) = some (k, digits.map digitChar) ∧
      (∀ d ∈ digits, d < 10) ∧
      NearPosition .singleFloat (ordinal .singleFloat (0x3EAAAAAB#32)) (-2)
        (decimalValue k digits) ∧
      if (0 : ℤ) ≤ -2 ∧ FloatType.singleFloat.format.value (ordinal .singleFloat (0x3EAAAAAB#32)) <
        10 ^ (-2 : ℤ) / 2 then
        k = -2 ∧ digits.length = 1
      else (digits.length : ℤ) ≤ k - -2 :=
  flonum_position .singleFloat (0x3EAAAAAB#32) (-2) (by unfold IsFinite; decide) (by decide)

/-- A quarter is rounded to zero at the position of the ones, and the digit is one of the tenths. -/
theorem flonum_position_quarter :
    percentFlonumToDigitsP .doubleFloat (0x3FD0000000000000#64) 0 = some (0, [3]) ∧
      ¬∀ type (bits : FloatBits type) p, IsFinite type bits → ordinal type bits ≠ 0 →
        ∃ k digits, percentFlonumToDigitsP type bits p = some (k, digits) ∧
          (digits.length : ℤ) ≤ k - p ∧
          NearPosition type (ordinal type bits) p (decimalValue k digits) := by
  refine ⟨quarter_check, fun h => ?_⟩
  obtain ⟨k, digits, hdigits', hlength, -⟩ :=
    h .doubleFloat (0x3FD0000000000000#64) 0 (by unfold IsFinite; decide) (by decide)
  obtain ⟨rfl, rfl⟩ := Prod.mk.inj (some_inj.1 (Eq.trans quarter_check.symm hdigits'))
  exact absurd hlength (by decide)

end Sbcl.Printer
