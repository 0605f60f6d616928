import Sbcl.Compiler.FloorTransforms
import Sbcl.Compiler.SignedConstantDivCorrect

/-!
# Floor and ceiling through truncate and shifts: correctness

* `floorValues_of_eq`, `ceilingValues_of_eq` : the two values, from the equation and the side of the
  remainder;
* `two_mul_abs_truncate` : a quotient with a remainder is at most half the dividend, so that a
  correction stays in its type;
* `floorByTruncate_eq`, `ceilingByTruncate_eq` : the corrections, whose asserted types hold;
* `floorByPowerOfTwo_eq`, `ceilingByPowerOfTwo_spec`, `truncateByPowerOfTwo_spec` : shifts and
  masks.
-/

namespace Sbcl.Compiler

open Option Int
open IntegerType (le_high low_le)

variable {n d q r : ℤ}

/-! ## Quotients -/

theorem floorValues_of_eq (h : n = q * d + r) (hr : 0 ≤ r ∧ r < d ∨ d < r ∧ r ≤ 0) :
    floorValues n d = (q, r) := by
  have hpos {n q d r : ℤ} (h : n = q * d + r) (h0 : 0 ≤ r) (hlt : r < d) : n.fdiv d = q := by
    rw [fdiv_eq_ediv_of_nonneg _ (by omega)]
    exact ((Int.ediv_emod_unique (by omega)).2 ⟨by rw [h]; ring, h0, hlt⟩).1
  have hq : n.fdiv d = q := by
    rcases hr with ⟨h0, hlt⟩ | ⟨hlt, h0⟩
    · exact hpos h h0 hlt
    · rw [← Int.neg_fdiv_neg]
      exact hpos (r := -r) (by rw [h]; ring) (by omega) (by omega)
  refine Prod.ext hq ?_
  show n.fmod d = r
  rw [fmod_def, hq, h]
  ring

theorem ceilingValues_of_eq (h : n = q * d + r) (hr : -d < r ∧ r ≤ 0 ∨ 0 ≤ r ∧ r < -d) :
    ceilingValues n d = (q, r) := by
  have hneg : floorValues (-n) d = (-q, -r) := floorValues_of_eq (by rw [h]; ring) (by omega)
  unfold floorValues at hneg
  unfold ceilingValues
  rw [Prod.mk.injEq] at hneg
  rw [hneg.1, hneg.2, neg_neg, neg_neg]

theorem truncate_eq (n d : ℤ) : n = n.tdiv d * d + n.tmod d := (tdiv_mul_add_tmod n d).symm

theorem abs_tmod_lt (n : ℤ) (hd : d ≠ 0) : |n.tmod d| < |d| := by
  rw [abs_tmod]
  exact emod_lt_of_pos _ (abs_pos.2 hd)

theorem nonneg_of_tmod_pos (h : 0 < n.tmod d) : 0 ≤ n := by
  by_contra hn
  have hneg := tmod_nonneg d (show 0 ≤ -n by omega)
  rw [neg_tmod] at hneg
  omega

theorem nonpos_of_tmod_neg (h : n.tmod d < 0) : n ≤ 0 := by
  by_contra hn
  have hpos := tmod_nonneg d (show 0 ≤ n by omega)
  omega

theorem two_mul_abs_truncate (hd : d ≠ 0) (h : n.tmod d ≠ 0) : 2 * |n.tdiv d| + 1 ≤ |n| := by
  have hrem : 0 < |n.tmod d| := abs_pos.2 h
  have hlt := abs_tmod_lt n hd
  have hn : |n| = |d| * |n.tdiv d| + |n.tmod d| := by
    rw [abs_tmod, abs_truncate, mul_ediv_add_emod]
  have hmul : 2 * |n.tdiv d| ≤ |d| * |n.tdiv d| :=
    Int.mul_le_mul_of_nonneg_right (by omega) (abs_nonneg _)
  omega

variable {t : IntegerType}

theorem abs_le_of_maxAbs {m : ℤ} (hn : n ∈ t) (h : t.maxAbs = some m) : |n| ≤ m := by
  unfold IntegerType.maxAbs at h
  cases hlow : t.low with
  | none => simp [hlow] at h
  | some low =>
    cases hhigh : t.high with
    | none => simp [hlow, hhigh] at h
    | some high =>
      have h1 := low_le hn hlow
      have h2 := le_high hn hhigh
      simp only [hlow, hhigh, bind_eq_bind, bind_some, pure_def, some_inj] at h
      rw [← h, le_max_iff]
      rcases le_or_gt 0 n with hn0 | hn0
      · exact Or.inr (by rw [abs_of_nonneg hn0]; exact h2.trans (le_abs_self high))
      · exact Or.inl (by rw [abs_of_neg hn0]; exact (neg_le_neg h1).trans (neg_le_abs low))

variable {types : RoundingTypes}

theorem hasTruncate_of_asserted {tru v : ℤ} (htru : types.truncate.Mem tru)
    (hv : types.asserted.Mem v)
    (hle : v ≤ tru ∧ tru ≤ max v 0 ∨ tru ≤ v ∧ min v 0 ≤ tru) : types.HasTruncate tru := by
  refine ⟨htru, fun hsub => ?_⟩
  obtain ⟨s, hs, hvs⟩ := hv
  obtain ⟨⟨l, hl, hl'⟩, h, hh, hh'⟩ := hsub s hs
  have h1 := low_le hvs hl
  have h2 := le_high hvs hh
  exact ⟨by omega, by omega⟩

/-! ## Floor -/

theorem inRange_floorRemType (hd : d ∈ t) (hr : 0 ≤ r ∧ r < d ∨ d < r ∧ r ≤ 0) :
    InRange (floorRemType t) r := by
  refine ⟨fun l hl => ?_, fun h hh => ?_⟩
  · obtain ⟨low, hlow, rfl⟩ := mem_map.1 hl
    have := low_le hd hlow
    split_ifs <;> omega
  · obtain ⟨high, hhigh, rfl⟩ := mem_map.1 hh
    have := le_high hd hhigh
    split_ifs <;> omega

theorem inRange_floorQuotType (hn : n ∈ t) (hq : |q| ≤ |n|) : InRange (floorQuotType t) q := by
  refine ⟨fun l hl => ?_, fun h hh => ?_⟩
  · obtain ⟨m, hm, rfl⟩ := mem_map.1 hl
    exact (abs_le.1 (hq.trans (abs_le_of_maxAbs hn hm))).1
  · exact (abs_le.1 (hq.trans (abs_le_of_maxAbs hn hh))).2

theorem floorByTruncate_eq (hn : n ∈ types.number) (hd : d ∈ types.divisor) (hd0 : d ≠ 0)
    (htru : types.truncate.Mem (truncateValues n d).1)
    (hass : types.asserted.Mem (floorValues n d).1) :
    floorByTruncate types n d = some (floorValues n d) := by
  have heq := truncate_eq n d
  have hlt := abs_lt.1 (abs_tmod_lt n hd0)
  have habs := abs_cases d
  change types.truncate.Mem (n.tdiv d) at htru
  unfold floorByTruncate
  dsimp only [truncateValues]
  by_cases hc : if d < 0 then n.tmod d > 0 else n.tmod d < 0
  · have hside : 0 ≤ n.tmod d + d ∧ n.tmod d + d < d ∨ d < n.tmod d + d ∧ n.tmod d + d ≤ 0 := by
      split_ifs at hc <;> omega
    have hval : floorValues n d = (n.tdiv d - 1, n.tmod d + d) :=
      floorValues_of_eq (by linarith) hside
    have hne : n.tmod d ≠ 0 := by split_ifs at hc <;> omega
    have hnonpos : n.tdiv d ≤ 0 := by
      split_ifs at hc with hneg
      · exact Int.tdiv_nonpos_of_nonneg_of_nonpos (nonneg_of_tmod_pos hc) hneg.le
      · have := Int.tdiv_nonneg (show 0 ≤ -n from neg_nonneg.2 (nonpos_of_tmod_neg hc))
          (not_lt.1 hneg)
        rw [Int.neg_tdiv] at this
        omega
    have hquot : |n.tdiv d - 1| ≤ |n| := by
      have h2 := two_mul_abs_truncate hd0 hne
      rw [abs_of_nonpos hnonpos] at h2
      rw [abs_of_neg (by omega)]
      omega
    rw [hval] at hass ⊢
    rw [if_neg (not_not.2 (hasTruncate_of_asserted htru hass (by omega))), if_pos hc,
      if_pos ⟨⟨inRange_floorQuotType hn hquot, hass⟩, inRange_floorRemType hd hside⟩]
  · have hside : 0 ≤ n.tmod d ∧ n.tmod d < d ∨ d < n.tmod d ∧ n.tmod d ≤ 0 := by
      split_ifs at hc <;> omega
    have hval : floorValues n d = (n.tdiv d, n.tmod d) := floorValues_of_eq heq hside
    rw [hval] at hass ⊢
    rw [if_neg (not_not.2 (hasTruncate_of_asserted htru hass (by omega))), if_neg hc,
      if_pos (inRange_floorRemType hd hside)]

/-! ## Ceiling -/

theorem inRange_ceilingRemType (hd : d ∈ t) (hr : -d < r ∧ r ≤ 0 ∨ 0 ≤ r ∧ r < -d) :
    InRange (ceilingRemType t) r := by
  refine ⟨fun l hl => ?_, fun h hh => ?_⟩
  · obtain ⟨high, hhigh, rfl⟩ := mem_map.1 hl
    have := le_high hd hhigh
    split_ifs <;> omega
  · obtain ⟨low, hlow, rfl⟩ := mem_map.1 hh
    have := low_le hd hlow
    split_ifs <;> omega

/-- The narrowed bound: a corrected quotient is below the dividend, unless that is one. -/
theorem inRange_ceilingQuotType {s : IntegerType} (hn : n ∈ t) (hq0 : 0 < q)
    (hq : 2 * q ≤ |n| + 1) : InRange (ceilingQuotType t s) q := by
  have hle {m m' : ℤ} (hm : t.maxAbs = some m)
      (hm' : (if 1 ∈ s ∨ -1 ∈ s ∨ m = 1 then m else m - 1) = m') : q ≤ m' := by
    have := abs_le_of_maxAbs hn hm
    split_ifs at hm' <;> omega
  refine ⟨fun l hl => ?_, fun h hh => ?_⟩
  · obtain ⟨m', hm', rfl⟩ := mem_map.1 hl
    obtain ⟨m, hm, hif⟩ := mem_map.1 hm'
    have := hle hm hif
    omega
  · obtain ⟨m, hm, hif⟩ := mem_map.1 hh
    exact hle hm hif

theorem ceilingByTruncate_eq (hn : n ∈ types.number) (hd : d ∈ types.divisor) (hd0 : d ≠ 0)
    (htru : types.truncate.Mem (truncateValues n d).1)
    (hass : types.asserted.Mem (ceilingValues n d).1) :
    ceilingByTruncate types n d = some (ceilingValues n d) := by
  have heq := truncate_eq n d
  have hlt := abs_lt.1 (abs_tmod_lt n hd0)
  have habs := abs_cases d
  change types.truncate.Mem (n.tdiv d) at htru
  unfold ceilingByTruncate
  dsimp only [truncateValues]
  by_cases hc : if d < 0 then n.tmod d < 0 else n.tmod d > 0
  · have hside : -d < n.tmod d - d ∧ n.tmod d - d ≤ 0 ∨ 0 ≤ n.tmod d - d ∧ n.tmod d - d < -d := by
      split_ifs at hc <;> omega
    have hval : ceilingValues n d = (n.tdiv d + 1, n.tmod d - d) :=
      ceilingValues_of_eq (by linarith) hside
    have hne : n.tmod d ≠ 0 := by split_ifs at hc <;> omega
    have hnonneg : 0 ≤ n.tdiv d := by
      split_ifs at hc with hneg
      · exact tdiv_nonneg_of_nonpos_of_nonpos (nonpos_of_tmod_neg hc) hneg.le
      · exact Int.tdiv_nonneg (nonneg_of_tmod_pos hc) (not_lt.1 hneg)
    have h2 := two_mul_abs_truncate hd0 hne
    rw [abs_of_nonneg hnonneg] at h2
    rw [hval] at hass ⊢
    rw [if_neg (not_not.2 (hasTruncate_of_asserted htru hass (by omega))), if_pos hc,
      if_pos ⟨⟨inRange_ceilingQuotType hn (by omega) (by omega), hass⟩,
        inRange_ceilingRemType hd hside⟩]
  · have hside : -d < n.tmod d ∧ n.tmod d ≤ 0 ∨ 0 ≤ n.tmod d ∧ n.tmod d < -d := by
      split_ifs at hc <;> omega
    have hval : ceilingValues n d = (n.tdiv d, n.tmod d) := ceilingValues_of_eq heq hside
    rw [hval] at hass ⊢
    rw [if_neg (not_not.2 (hasTruncate_of_asserted htru hass (by omega))), if_neg hc,
      if_pos (inRange_ceilingRemType hd hside)]

theorem ceilingOfFixnums_eq (hn : 0 ≤ n) (hn' : n < 2 ^ nPositiveFixnumBits) (hd : 0 < d) :
    ceilingOfFixnums n d = some ((ceilingValues n d).1, 0) := by
  have hq : (n + (d - 1)).tdiv d = (n + (d - 1)) / d := tdiv_eq_ediv_of_nonneg (by omega)
  have hmod := emod_add_mul_ediv (n + (d - 1)) d
  have h0 := emod_nonneg (n + (d - 1)) hd.ne'
  have hlt := emod_lt_of_pos (n + (d - 1)) hd
  have hval : ceilingValues n d = ((n + (d - 1)) / d, (n + (d - 1)) % d - (d - 1)) :=
    ceilingValues_of_eq (by linarith) (by omega)
  have hnonneg : 0 ≤ (n + (d - 1)) / d := ediv_nonneg (by omega) hd.le
  have hle : (n + (d - 1)) / d ≤ n := by
    rcases hn.lt_or_eq with hpos | rfl
    · refine Int.ediv_le_of_le_mul hd ?_
      have := Int.mul_nonneg (show 0 ≤ n - 1 by omega) (show 0 ≤ d - 1 by omega)
      linarith
    · rw [zero_add, ediv_eq_zero_of_lt (by omega) (by omega)]
  unfold ceilingOfFixnums truncate
  rw [hq, trulyThe_eq (by omega) (by omega), hval]
  rfl

/-! ## Powers of two -/

variable {y : ℤ}

theorem powerOfTwoLength_iff {len : ℤ} : powerOfTwoLength y = some len ↔ ∃ k : ℕ, len = k ∧
    |y| = 2 ^ k := by
  unfold powerOfTwoLength
  dsimp only
  refine ⟨fun h => ?_, ?_⟩
  · split_ifs at h with hc
    rw [some_inj] at h
    have hlen : 0 < integerLength |y| := (lt_integerLength_iff hc.1.le 0).2 (by omega)
    refine ⟨integerLength |y| - 1, by omega, ?_⟩
    have hash := hc.2
    rw [show ((integerLength |y| : ℤ) - 1) = (integerLength |y| - 1 : ℕ) by omega, ash_ofNat,
      one_mul] at hash
    exact hash
  · rintro ⟨k, rfl, h⟩
    have hlen : integerLength (2 ^ k) = k + 1 := by
      have := integerLength_natCast (2 ^ k)
      rw [Nat.size_pow] at this
      exact_mod_cast this
    have hpos : (0 : ℤ) < 2 ^ k := by positivity
    rw [h, hlen, Nat.cast_add_one, add_sub_cancel_right, ash_ofNat, one_mul, if_pos ⟨hpos, rfl⟩]

theorem shift_mask (x : ℤ) (k : ℕ) :
    x = ash x (-k) * 2 ^ k + logand x (2 ^ k - 1) ∧ 0 ≤ logand x (2 ^ k - 1) ∧
    logand x (2 ^ k - 1) < 2 ^ k := by
  rw [ash_neg, logand_mask]
  exact ⟨(ediv_mul_add_emod x (2 ^ k)).symm, emod_nonneg _ (by positivity),
    emod_lt_of_pos _ (by positivity)⟩

section Forms

variable {x y : ℤ} {k : ℕ}

theorem eq_or_eq_neg_of_abs (h : |y| = 2 ^ k) : 0 < y ∧ y = 2 ^ k ∨ y < 0 ∧ y = -2 ^ k := by
  have hpos : (0 : ℤ) < 2 ^ k := by positivity
  rcases abs_cases y with ⟨habs, -⟩ | ⟨habs, -⟩ <;> omega

theorem floorForm_eq (h : |y| = 2 ^ k) (x : ℤ) :
    floorForm y (-k) (2 ^ k - 1) x = floorValues x y := by
  unfold floorForm
  symm
  rcases eq_or_eq_neg_of_abs h with ⟨hy, hy'⟩ | ⟨hy, hy'⟩
  · obtain ⟨heq, h0, hlt⟩ := shift_mask x k
    rw [if_neg hy.not_gt]
    exact floorValues_of_eq (by rw [hy']; exact heq) (by omega)
  · obtain ⟨heq, h0, hlt⟩ := shift_mask (-x) k
    rw [if_pos hy]
    exact floorValues_of_eq (by rw [hy']; linarith) (by omega)

theorem ceilingForm_eq (h : |y| = 2 ^ k) (x : ℤ) :
    ceilingForm y (-k) (2 ^ k - 1) (y.sign * (2 ^ k - 1)) x = ceilingValues x y := by
  unfold ceilingForm
  symm
  rcases eq_or_eq_neg_of_abs h with ⟨hy, hy'⟩ | ⟨hy, hy'⟩
  · rw [if_neg hy.not_gt, sign_eq_one_of_pos hy, one_mul]
    obtain ⟨heq, h0, hlt⟩ := shift_mask (x + (2 ^ k - 1)) k
    exact ceilingValues_of_eq (by rw [hy']; linarith) (by omega)
  · rw [if_pos hy, sign_eq_neg_one_of_neg hy, neg_one_mul]
    obtain ⟨heq, h0, hlt⟩ := shift_mask (-(x + -(2 ^ k - 1))) k
    exact ceilingValues_of_eq (by rw [hy']; linarith) (by omega)

theorem ceilingWordForm_eq (x : ℤ) (k : ℕ) :
    ceilingWordForm (-k) x = ((ceilingValues x (2 ^ k)).1, 0) := by
  have hpow : (0 : ℤ) < 2 ^ k := by positivity
  unfold ceilingWordForm
  split_ifs with hx
  · have hzero : ceilingValues x (2 ^ k) = (0, 0) := ceilingValues_of_eq (by omega) (by omega)
    rw [hzero]
  obtain ⟨heq, h0, hlt⟩ := shift_mask (x - 1) k
  have hval : ceilingValues x (2 ^ k) = (1 + ash (x - 1) (-k),
      logand (x - 1) (2 ^ k - 1) - (2 ^ k - 1)) :=
    ceilingValues_of_eq (by linarith) (by omega)
  rw [hval]

theorem truncateValues_neg (x y : ℤ) :
    truncateValues (-x) y = (-(truncateValues x y).1, -(truncateValues x y).2) := by
  unfold truncateValues
  rw [Int.neg_tdiv, neg_tmod]

theorem truncateValues_eq (h : |y| = 2 ^ k) (hx : 0 ≤ x) :
    truncateValues x y = (if y < 0 then -ash x (-k) else ash x (-k), logand x (2 ^ k - 1)) := by
  unfold truncateValues
  rw [ash_neg, logand_mask]
  rcases eq_or_eq_neg_of_abs h with ⟨hy, hy'⟩ | ⟨hy, hy'⟩
  · rw [if_neg hy.not_gt, hy', tdiv_eq_ediv_of_nonneg hx, tmod_eq_emod_of_nonneg hx]
  · rw [if_pos hy, hy', Int.tdiv_neg, tmod_neg, tdiv_eq_ediv_of_nonneg hx,
      tmod_eq_emod_of_nonneg hx]

theorem truncateForm_eq (h : |y| = 2 ^ k) (x : ℤ) :
    truncateForm y (-k) (2 ^ k - 1) x = truncateValues x y := by
  unfold truncateForm
  split_ifs with hx hy hy
  · have hneg := truncateValues_neg (-x) y
    rw [neg_neg, truncateValues_eq (x := -x) h (by omega), if_pos hy, neg_neg] at hneg
    exact hneg.symm
  · have hneg := truncateValues_neg (-x) y
    rw [neg_neg, truncateValues_eq (x := -x) h (by omega), if_neg hy] at hneg
    exact hneg.symm
  · rw [truncateValues_eq h (not_lt.1 hx), if_pos hy]
  · rw [truncateValues_eq h (not_lt.1 hx), if_neg hy]

theorem logand_eq_zero_iff (h : |y| = 2 ^ k) (x : ℤ) : logand x (2 ^ k - 1) = 0 ↔
    (truncateValues x y).2 = 0 := by
  show _ ↔ x.tmod y = 0
  rw [logand_mask, ← dvd_iff_emod_eq_zero, ← dvd_iff_tmod_eq_zero, ← h, abs_dvd]

end Forms

/-! ## The transforms of constants -/

theorem floorByPowerOfTwo_eq {form : ℤ → ℤ × ℤ} (h : floorByPowerOfTwo y = some form) (x : ℤ) :
    form x = floorValues x y := by
  obtain ⟨len, hlen, hform⟩ := bind_eq_some_iff.1 h
  obtain ⟨k, rfl, habs⟩ := powerOfTwoLength_iff.1 hlen
  rw [pure_def, some_inj] at hform
  rw [← hform, habs]
  exact floorForm_eq habs x

/-- `ceiling` has the form that does not overflow: its second value is not used, and adding `delta`
may leave the words. -/
def AvoidsOverflow (y : ℤ) (xType derived : IntegerType) (singleValue : Bool) : Prop :=
  0 < y ∧ singleValue = true ∧ derived.Within 0 mostPositiveWord ∧
    ¬ xType.Within 0 (mostPositiveWord - (y - 1))

theorem ceilingByPowerOfTwo_spec {xType derived : IntegerType} {singleValue : Bool}
    {form : ℤ → ℤ × ℤ} (h : ceilingByPowerOfTwo y xType derived singleValue = some form) (x : ℤ) :
    (AvoidsOverflow y xType derived singleValue → form x = ((ceilingValues x y).1, 0)) ∧
      (¬ AvoidsOverflow y xType derived singleValue → form x = ceilingValues x y) := by
  obtain ⟨len, hlen, hform⟩ := bind_eq_some_iff.1 h
  obtain ⟨k, rfl, habs⟩ := powerOfTwoLength_iff.1 hlen
  dsimp only at hform
  have havoids : AvoidsOverflow y xType derived singleValue ↔ 0 < y ∧ singleValue = true ∧
    derived.Within 0 mostPositiveWord ∧
      ¬ xType.Within 0 (mostPositiveWord - y.sign * (|y| - 1)) := by
    unfold AvoidsOverflow
    refine and_congr_right fun hy => ?_
    rw [sign_eq_one_of_pos hy, abs_of_pos hy, one_mul]
  split_ifs at hform with hsingle hgive
  · obtain rfl : y = 2 ^ k := by rw [← habs, abs_of_pos hsingle.1]
    rw [some_inj] at hform
    refine ⟨fun _ => ?_, fun hf => absurd (havoids.2 hsingle) hf⟩
    rw [← hform, ceilingWordForm_eq]
  · rw [some_inj, habs] at hform
    refine ⟨fun hf => absurd (havoids.1 hf) hsingle, fun _ => ?_⟩
    rw [← hform, ceilingForm_eq habs]

/-- The quotient, and the remainder, or its low bits where it is only compared with zero. -/
theorem truncateByPowerOfTwo_spec {xType : IntegerType} {zerop signedVop : Bool} {form : ℤ → ℤ × ℤ}
    (h : truncateByPowerOfTwo y xType zerop signedVop = some form) (x : ℤ) :
    (zerop = true → form x = ((truncateValues x y).1, logand x (|y| - 1))) ∧
    ((form x).2 = 0 ↔ (truncateValues x y).2 = 0) ∧
      (zerop = false → form x = truncateValues x y) := by
  obtain ⟨len, hlen, hform⟩ := bind_eq_some_iff.1 h
  obtain ⟨k, rfl, habs⟩ := powerOfTwoLength_iff.1 hlen
  rw [habs] at hform
  split_ifs at hform with hz hgive
  · rw [some_inj] at hform
    rw [← hform]
    exact ⟨fun _ => by rw [habs]; rfl, logand_eq_zero_iff habs x,
      fun hf => absurd (hz.symm.trans hf) (by decide)⟩
  · rw [some_inj] at hform
    rw [← hform, truncateForm_eq habs]
    exact ⟨fun hf => absurd hf hz, Iff.rfl, fun _ => rfl⟩

theorem floorByPowerOfTwo_isSome {k : ℕ} (h : |y| = 2 ^ k) :
    (floorByPowerOfTwo y).isSome = true := by
  unfold floorByPowerOfTwo
  rw [powerOfTwoLength_iff.2 ⟨k, rfl, h⟩]
  rfl

/-- The rewrites: of constants, with the exact remainder unless it is not used, or only compared
with zero, and of arguments of declared types, whose values lie in all asserted types. -/
theorem rounding_rewrites :
    (∀ (y : ℤ) (k : ℕ), |y| = 2 ^ k → ∃ form, floorByPowerOfTwo y = some form ∧ ∀ x,
      form x = floorValues x y) ∧
    (∀ (y : ℤ) (xType derived : IntegerType) (singleValue : Bool) (form : ℤ → ℤ × ℤ),
      ceilingByPowerOfTwo y xType derived singleValue = some form →
        ∀ x, (AvoidsOverflow y xType derived singleValue → form x = ((ceilingValues x y).1, 0)) ∧
          (¬ AvoidsOverflow y xType derived singleValue → form x = ceilingValues x y)) ∧
    (∀ (y : ℤ) (xType : IntegerType) (zerop signedVop : Bool) (form : ℤ → ℤ × ℤ),
      truncateByPowerOfTwo y xType zerop signedVop = some form →
      ∀ x, (zerop = true → form x = ((truncateValues x y).1, logand x (|y| - 1))) ∧
        ((form x).2 = 0 ↔ (truncateValues x y).2 = 0) ∧
        (zerop = false → form x = truncateValues x y)) ∧
    (∀ (types : RoundingTypes) (n d : ℤ), n ∈ types.number → d ∈ types.divisor → d ≠ 0 →
      types.truncate.Mem (truncateValues n d).1 →
      (types.asserted.Mem (floorValues n d).1 →
        floorByTruncate types n d = some (floorValues n d)) ∧
        (types.asserted.Mem (ceilingValues n d).1 →
          ceilingByTruncate types n d = some (ceilingValues n d))) ∧
    ∀ n d : ℤ, 0 ≤ n → n < 2 ^ nPositiveFixnumBits → 0 < d →
      ceilingOfFixnums n d = some ((ceilingValues n d).1, 0) := by
  refine ⟨fun y k h => ?_, fun _ _ _ _ _ h => ceilingByPowerOfTwo_spec h,
    fun _ _ _ _ _ h => truncateByPowerOfTwo_spec h,
    fun _ _ _ hn hd hd0 htru => ⟨floorByTruncate_eq hn hd hd0 htru,
      ceilingByTruncate_eq hn hd hd0 htru⟩,
    fun _ _ hn hn' hd => ceilingOfFixnums_eq hn hn' hd⟩
  obtain ⟨form, hform⟩ := isSome_iff_exists.1 (floorByPowerOfTwo_isSome h)
  exact ⟨form, hform, floorByPowerOfTwo_eq hform⟩

/-- Types of a dividend between minus ten and ten and a divisor above one, with nothing asserted. -/
def smallTypes : RoundingTypes where
  number := ⟨some (-10), some 10, by decide⟩
  divisor := ⟨some 2, none, by decide⟩
  truncate := [⟨some (-5), some 5, by decide⟩]
  asserted := specifierInteger none none

def words : IntegerType := ⟨some 0, some mostPositiveWord, by decide⟩

theorem rounding_rewrites_small :
    (∃ form, floorByPowerOfTwo (-8) = some form ∧ form 13 = floorValues 13 (-8)) ∧
    (∃ form, ceilingByPowerOfTwo 4 words words true = some form ∧
      form 7 = ((ceilingValues 7 4).1, 0)) ∧
    (∃ form, ceilingByPowerOfTwo (-4) smallTypes.number words true = some form ∧
      form (-7) = ceilingValues (-7) (-4)) ∧
    (∃ form, truncateByPowerOfTwo 4 smallTypes.number true false = some form ∧
      form (-7) = ((truncateValues (-7) 4).1, logand (-7) (|4| - 1)) ∧
      ((form (-7)).2 = 0 ↔ (truncateValues (-7) 4).2 = 0)) ∧
    (∃ form, truncateByPowerOfTwo 4 smallTypes.number false false = some form ∧
      form (-7) = truncateValues (-7) 4) ∧
    floorByTruncate smallTypes (-7) 2 = some (floorValues (-7) 2) ∧
    ceilingByTruncate smallTypes 7 2 = some (ceilingValues 7 2) ∧
    ceilingOfFixnums 7 2 = some ((ceilingValues 7 2).1, 0) := by
  obtain ⟨hfloor, hceiling, htruncate, htypes, hfixnums⟩ := rounding_rewrites
  obtain ⟨form, hform, hvalues⟩ := hfloor (-8) 3 (by decide)
  have hsmall := htypes smallTypes
  refine ⟨⟨form, hform, hvalues 13⟩,
    ⟨_, rfl, (hceiling 4 words words true _ rfl 7).1 (by unfold AvoidsOverflow; decide)⟩,
    ⟨_, rfl, (hceiling (-4) smallTypes.number words true _ rfl (-7)).2
      (by unfold AvoidsOverflow; decide)⟩, ⟨_, rfl, ?_⟩,
    ⟨_, rfl, (htruncate 4 smallTypes.number false false _ rfl (-7)).2.2 rfl⟩, ?_, ?_, ?_⟩
  · have hzerop := htruncate 4 smallTypes.number true false _ rfl (-7)
    exact ⟨hzerop.1 rfl, hzerop.2.1⟩
  · exact (hsmall (-7) 2 (by decide) (by decide) (by decide) (by decide)).1 (by decide)
  · exact (hsmall 7 2 (by decide) (by decide) (by decide) (by decide)).2 (by decide)
  · exact hfixnums 7 2 (by decide) (by decide) (by decide)

/-- Where only the quotient is used, the second value is not the remainder. -/
theorem not_ceilingByPowerOfTwo_exact :
    ¬∀ (y : ℤ) (xType derived : IntegerType) (singleValue : Bool) (form : ℤ → ℤ × ℤ),
      ceilingByPowerOfTwo y xType derived singleValue = some form → ∀ x,
        form x = ceilingValues x y := by
  intro h
  have hform : ceilingByPowerOfTwo 4 words words true = some (ceilingWordForm (-2)) := rfl
  have hvalue := h _ _ _ _ _ hform 3
  revert hvalue
  decide

end Sbcl.Compiler
