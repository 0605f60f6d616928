import Sbcl.Compiler.IntervalCorrect
import Sbcl.Compiler.RoundingBounds

/-!
# Soundness of the bounds of quotients and remainders

* `mem_floorQuotientBound`, `mem_ceilingQuotientBound`, `truncateQuotientBound_sound` : what a
  quotient is rounded to is within its bounds;
* `floorRemBound_sound`, `ceilingRemBound_sound` : a remainder is within its bounds, and so is zero;
* `truncateRemBound_sound` : the same for `truncateRemBound`, whose parts share zero and so can be
  merged;
* `derives_integerTruncate` : a quotient of integers is in its derived type.
-/

namespace Sbcl.Compiler

open Intervals Option Int

variable {x y z : Interval} {a n d : ℚ}
variable {zerop : Bool} {b : Bound} {s t : Sign} {r : ℚ} {rem : ℚ → ℚ → ℚ}

/-! ## Quotients -/

theorem floor_le_floorHigh (h : b.Above a) : ⌊a⌋ ≤ floorHigh b := by
  have hle : ⌊a⌋ ≤ ⌊b.value⌋ := floor_le_floor h.le
  unfold floorHigh
  dsimp only
  split_ifs with hs hr
  · have hlt : (⌊a⌋ : ℚ) < ⌊b.value⌋ := (floor_le a).trans_lt ((h.2 hs).trans_eq (sub_eq_zero.1 hr))
    exact le_sub_one_of_lt (by exact_mod_cast hlt)
  · exact hle
  · exact hle

theorem ceilingLow_le_ceil (h : b.Below a) : ceilingLow b ≤ ⌈a⌉ := by
  have hle : ⌈b.value⌉ ≤ ⌈a⌉ := ceil_le_ceil h.le
  unfold ceilingLow
  dsimp only
  split_ifs with hs hr
  · have hlt : (⌈b.value⌉ : ℚ) < ⌈a⌉ :=
      ((sub_eq_zero.1 hr).symm.trans_lt (h.2 hs)).trans_le (le_ceil a)
    exact add_one_le_of_lt (by exact_mod_cast hlt)
  · exact hle
  · exact hle

theorem mem_floorQuotientBound (ha : a ∈ z) : (⌊a⌋ : ℚ) ∈ floorQuotientBound z := by
  refine ⟨fun b hb => ?_, fun b hb => ?_⟩
  · obtain ⟨lo, hlo, rfl⟩ := map_eq_some_iff.1 hb
    exact Bound.below_closed.2 (cast_le.2 (floor_le_floor (ha.1 lo hlo).le))
  · obtain ⟨hi, hhi, rfl⟩ := map_eq_some_iff.1 hb
    exact Bound.above_closed.2 (cast_le.2 (floor_le_floorHigh (ha.2 hi hhi)))

theorem mem_ceilingQuotientBound (ha : a ∈ z) : (⌈a⌉ : ℚ) ∈ ceilingQuotientBound z := by
  refine ⟨fun b hb => ?_, fun b hb => ?_⟩
  · obtain ⟨lo, hlo, rfl⟩ := map_eq_some_iff.1 hb
    exact Bound.below_closed.2 (cast_le.2 (ceilingLow_le_ceil (ha.1 lo hlo)))
  · obtain ⟨hi, hhi, rfl⟩ := map_eq_some_iff.1 hb
    exact Bound.above_closed.2 (cast_le.2 (ceil_le_ceil (ha.2 hi hhi).le))

/-- `truncate` of a rational number. -/
def truncateRational (a : ℚ) : ℤ := if 0 ≤ a then ⌊a⌋ else ⌈a⌉

theorem truncateRational_of_nonneg (h : 0 ≤ a) : truncateRational a = ⌊a⌋ := if_pos h

theorem truncateRational_of_nonpos (h : a ≤ 0) : truncateRational a = ⌈a⌉ := by
  unfold truncateRational
  split_ifs with h0
  · rw [le_antisymm h h0, floor_zero, ceil_zero]
  · rfl

theorem merged_sound {u v : Interval} (hu : a ∈ u) (hv : a ∈ v) : ∃ z, merged u v = .ok z ∧ ∀ b,
    b ∈ u ∨ b ∈ v → b ∈ z := by
  obtain ⟨z, hz⟩ := mergePair_of_mem hu hv
  exact ⟨z, merged_eq hz, fun b hb => mem_mergePair hz hb⟩

theorem truncateQuotientBound_sound (z : Interval) :
    ∃ t, truncateQuotientBound z = .ok t ∧ ∀ a ∈ z, (truncateRational a : ℚ) ∈ t := by
  unfold truncateQuotientBound
  rcases hz : intervalRangeInfo z 0 with _ | ⟨_ | _⟩
  · have hneg := mem_ceilingQuotientBound (mem_split_left (zero_mem hz) le_rfl)
    rw [ceil_zero, cast_zero] at hneg
    have hpos : 0 ∈ floorQuotientBound (intervalSplit 0 z true true).2 := by
      refine ⟨?_, fun b hb => ?_⟩
      · rintro _ ⟨⟩
        simp [Bound.Below]
      obtain ⟨hi, hhi, rfl⟩ := map_eq_some_iff.1 hb
      have hfloor := floor_le_floorHigh (Bound.above_of_lt ((straddles hz).2 hi hhi))
      rw [floor_zero] at hfloor
      exact Bound.above_closed.2 (by simpa using hfloor)
    obtain ⟨t, ht, hmem⟩ := merged_sound hneg hpos
    refine ⟨t, ht, fun a ha => hmem _ ?_⟩
    rcases le_or_gt a 0 with h | h
    · rw [truncateRational_of_nonpos h]
      exact .inl (mem_ceilingQuotientBound (mem_split_left ha h))
    · rw [truncateRational_of_nonneg h.le]
      exact .inr (mem_floorQuotientBound (mem_split_right ha h))
  · refine ⟨_, rfl, fun a ha => ?_⟩
    rw [truncateRational_of_nonneg (nonneg_of_mem hz ha)]
    exact mem_floorQuotientBound ha
  · refine ⟨_, rfl, fun a ha => ?_⟩
    rw [truncateRational_of_nonpos
      (neg_nonneg.1 (nonneg_of_mem (rangeInfo_neg hz) (mem_intervalNeg ha)))]
    exact mem_ceilingQuotientBound ha

/-! ## Remainders -/

/-- The remainder of `floor`. -/
abbrev floorRem (n d : ℚ) : ℚ := n - d * ⌊n / d⌋

/-- The remainder of `ceiling`. -/
abbrev ceilingRem (n d : ℚ) : ℚ := n - d * ⌈n / d⌉

/-- The remainder of `truncate`. -/
abbrev truncateRem (n d : ℚ) : ℚ := n - d * truncateRational (n / d)

theorem floorRem_eq (hd : d ≠ 0) : floorRem n d = d * Int.fract (n / d) := by
  rw [floorRem, Int.fract, mul_sub, mul_div_cancel₀ n hd]

theorem ceilingRem_eq (n d : ℚ) : ceilingRem n d = floorRem n (-d) := by
  rw [ceilingRem, floorRem, div_neg, floor_neg, cast_neg, neg_mul_neg]

theorem floorRem_of_pos (hd : 0 < d) : 0 ≤ floorRem n d ∧ floorRem n d < d := by
  rw [floorRem_eq hd.ne']
  exact ⟨mul_nonneg hd.le (fract_nonneg _), mul_lt_of_lt_one_right hd (fract_lt_one _)⟩

theorem floorRem_of_neg (hd : d < 0) : d < floorRem n d ∧ floorRem n d ≤ 0 := by
  rw [floorRem_eq hd.ne]
  have hlt := mul_lt_mul_of_neg_left (fract_lt_one (n / d)) hd
  rw [mul_one] at hlt
  exact ⟨hlt, mul_nonpos_of_nonpos_of_nonneg hd.le (fract_nonneg _)⟩

theorem floorRem_le (hn : 0 ≤ n) (hd : 0 < d) : floorRem n d ≤ n := by
  have hfloor : (0 : ℚ) ≤ ⌊n / d⌋ := by exact_mod_cast floor_nonneg.2 (div_nonneg hn hd.le)
  exact sub_le_self n (mul_nonneg hd.le hfloor)

theorem le_floorRem (hn : n ≤ 0) (hd : d < 0) : n ≤ floorRem n d := by
  have hfloor :
      (0 : ℚ) ≤ ⌊n / d⌋ := by exact_mod_cast floor_nonneg.2 (div_nonneg_of_nonpos hn hd.le)
  exact le_sub_self_iff n |>.2 (mul_nonpos_of_nonpos_of_nonneg hd.le hfloor)

theorem nonpos_of_minus (h : intervalRangeInfo x 0 = some .minus) (ha : a ∈ x) : a ≤ 0 :=
  neg_nonneg.1 (nonneg_of_mem (rangeInfo_neg h) (mem_intervalNeg ha))

theorem low_neg_of_minus (h : intervalRangeInfo x 0 = some .minus) : ∀ b ∈ x.low, b.value < 0 := by
  intro b hb
  by_contra hc
  unfold intervalRangeInfo at h
  rw [if_pos ⟨b, hb, not_lt.1 hc⟩] at h
  cases h

/-- The bound of a remainder at a bound of the absolute values of the divisor. -/
def remLimit (zerop : Bool) : Option Compiler.Bound → Option Compiler.Bound
  | some (.closed h) => if zerop ∧ h = 0 then some (.closed h) else some (.strict h)
  | limit => limit

theorem mem_nonnegRem (hr : 0 ≤ r)
    (hlimit : ∀ b ∈ y.high, r < b.value ∨ zerop = true ∧ b = .closed 0 ∧ r = 0)
    (hnum : intervalRangeInfo x 0 = some .plus → ∃ n ∈ x, r ≤ n) : r ∈ nonnegRem zerop x y := by
  have hlow : ∀ b ∈ some (Bound.closed (0 : ℚ)), b.Below r := by
    rintro _ ⟨⟩
    exact Bound.below_closed.2 hr
  have hrem : r ∈ (⟨some (.closed 0), remLimit zerop y.high⟩ : Interval) := by
    refine ⟨hlow, fun b hb => ?_⟩
    unfold remLimit at hb
    split at hb
    · rename_i h hh
      rcases hlimit _ hh with hlt | ⟨hz, hclosed, rfl⟩
      · split_ifs at hb <;> cases hb <;> exact Bound.above_of_lt hlt
      obtain rfl := Bound.closed.inj hclosed
      rw [if_pos ⟨hz, rfl⟩] at hb
      cases hb
      exact Bound.above_closed.2 le_rfl
    · rename_i hne
      rcases hlimit b hb with hlt | ⟨-, rfl, -⟩
      · exact Bound.above_of_lt hlt
      · exact absurd hb (hne 0)
  unfold nonnegRem
  dsimp only
  split
  · rename_i h hh
    split_ifs with htight
    · refine ⟨hlow, ?_⟩
      rintro _ ⟨⟩
      obtain ⟨n, hn, hrn⟩ := hnum htight.1
      exact Bound.above_closed.2 (hrn.trans (hn.2 _ hh).le)
    · exact hrem
  · exact hrem

theorem mem_nonposRem (hr : r ≤ 0)
    (hlimit : ∀ b ∈ y.low, b.value < r ∨ zerop = true ∧ b = .closed 0 ∧ r = 0)
    (hnum : intervalRangeInfo x 0 = some .minus → ∃ n ∈ x, n ≤ r) : r ∈ nonposRem zerop x y := by
  have hhigh : ∀ b ∈ some (Bound.closed (0 : ℚ)), b.Above r := by
    rintro _ ⟨⟩
    exact Bound.above_closed.2 hr
  have hrem : r ∈ (⟨remLimit zerop y.low, some (.closed 0)⟩ : Interval) := by
    refine ⟨fun b hb => ?_, hhigh⟩
    unfold remLimit at hb
    split at hb
    · rename_i l hl
      rcases hlimit _ hl with hlt | ⟨hz, hclosed, rfl⟩
      · split_ifs at hb <;> cases hb <;> exact Bound.below_of_lt hlt
      obtain rfl := Bound.closed.inj hclosed
      rw [if_pos ⟨hz, rfl⟩] at hb
      cases hb
      exact Bound.below_closed.2 le_rfl
    · rename_i hne
      rcases hlimit b hb with hlt | ⟨-, rfl, -⟩
      · exact Bound.below_of_lt hlt
      · exact absurd hb (hne 0)
  unfold nonposRem
  dsimp only
  split
  · rename_i l hl
    split_ifs with htight
    · refine ⟨?_, hhigh⟩
      rintro _ ⟨⟩
      obtain ⟨n, hn, hnr⟩ := hnum htight.1
      exact Bound.below_closed.2 ((hn.1 _ hl).le.trans hnr)
    · exact hrem
  · exact hrem

/-! ## Remainders of `floor` and `ceiling` -/

theorem intervalAbs_plus (h : intervalRangeInfo y 0 = some .plus) : intervalAbs y = .ok y := by
  unfold intervalAbs
  rw [h]

theorem intervalAbs_minus (h : intervalRangeInfo y 0 = some .minus) :
    intervalAbs y = .ok (intervalNeg y) := by
  unfold intervalAbs
  rw [h]

/-- A positive divisor type with a member has a limit that is zero only where it is closed. -/
theorem plus_limit (hy : intervalRangeInfo y 0 = some .plus) (hd : d ∈ y) : ∀ b ∈ y.high,
    0 < b.value ∨ b = .closed 0 := by
  intro b hb
  have hd0 := nonneg_of_mem hy hd
  have habove := hd.2 b hb
  cases b with
  | strict v => exact .inl (hd0.trans_lt (habove.2 rfl))
  | closed v =>
    rcases (hd0.trans habove.le).eq_or_lt with h | h
    · exact .inr (congrArg Bound.closed h.symm)
    · exact .inl h

theorem low_neg_eq (hb : b ∈ (intervalNeg y).low) : ∃ c ∈ y.high, b = c.neg := by
  obtain ⟨c, hc, rfl⟩ := map_eq_some_iff.1 hb
  exact ⟨c, hc, rfl⟩

theorem high_neg_eq (hb : b ∈ (intervalNeg y).high) : ∃ c ∈ y.low, b = c.neg := by
  obtain ⟨c, hc, rfl⟩ := map_eq_some_iff.1 hb
  exact ⟨c, hc, rfl⟩

/-- A bound of remainders `rem`: an interval with zero and all of them. -/
def RemSound (rem : ℚ → ℚ → ℚ) (bound : Except Failure Interval) (x y : Interval) : Prop :=
  ∃ r, bound = .ok r ∧ 0 ∈ r ∧ ∀ n ∈ x, ∀ d ∈ y, d ≠ 0 → rem n d ∈ r

theorem floorRemBound_plus (hx : ∃ n, n ∈ x) (hy : ∃ d, d ∈ y)
    (h : intervalRangeInfo y 0 = some .plus) : RemSound floorRem (floorRemBound x y) x y := by
  obtain ⟨n₀, hn₀⟩ := hx
  obtain ⟨d₀, hd₀⟩ := hy
  refine ⟨nonnegRem true x y, ?_, mem_nonnegRem le_rfl (fun b hb => ?_) fun hplus =>
    ⟨n₀, hn₀, nonneg_of_mem hplus hn₀⟩,
    fun n hn d hd hd0 => ?_⟩
  · unfold floorRemBound
    rw [h, intervalAbs_plus h]
    rfl
  · exact (plus_limit h hd₀ b hb).imp_right fun hb0 => ⟨rfl, hb0, rfl⟩
  · have hpos := (nonneg_of_mem h hd).lt_of_ne' hd0
    exact mem_nonnegRem (floorRem_of_pos hpos).1 (fun b hb =>
      .inl ((floorRem_of_pos hpos).2.trans_le (hd.2 b hb).le))
      fun hplus => ⟨n, hn, floorRem_le (nonneg_of_mem hplus hn) hpos⟩

theorem floorRemBound_minus (hx : ∃ n, n ∈ x) (h : intervalRangeInfo y 0 = some .minus) :
    RemSound floorRem (floorRemBound x y) x y := by
  obtain ⟨n₀, hn₀⟩ := hx
  refine ⟨nonposRem false x y, ?_, mem_nonposRem le_rfl (fun b hb => .inl (low_neg_of_minus h b hb))
    fun hminus => ⟨n₀, hn₀, nonpos_of_minus hminus hn₀⟩, fun n hn d hd hd0 => ?_⟩
  · unfold floorRemBound
    rw [h, intervalAbs_minus h]
    show Except.ok (nonposRem false x (intervalNeg (intervalNeg y))) = _
    rw [intervalNeg_neg]
  · have hneg := (nonpos_of_minus h hd).lt_of_ne hd0
    exact mem_nonposRem (floorRem_of_neg hneg).2 (fun b hb =>
      .inl ((hd.1 b hb).le.trans_lt (floorRem_of_neg hneg).1))
      fun hminus => ⟨n, hn, le_floorRem (nonpos_of_minus hminus hn) hneg⟩

theorem ceilingRemBound_plus (hx : ∃ n, n ∈ x) (hy : ∃ d, d ∈ y)
    (h : intervalRangeInfo y 0 = some .plus) : RemSound ceilingRem (ceilingRemBound x y) x y := by
  obtain ⟨n₀, hn₀⟩ := hx
  obtain ⟨d₀, hd₀⟩ := hy
  refine ⟨nonposRem true x (intervalNeg y), ?_, mem_nonposRem le_rfl (fun b hb => ?_)
    fun hminus => ⟨n₀, hn₀, nonpos_of_minus hminus hn₀⟩, fun n hn d hd hd0 => ?_⟩
  · unfold ceilingRemBound
    rw [h, intervalAbs_plus h]
    rfl
  · obtain ⟨c, hc, rfl⟩ := low_neg_eq hb
    rcases plus_limit h hd₀ c hc with hpos | rfl
    · exact .inl (by simpa using hpos)
    · exact .inr ⟨rfl, by simp [Bound.neg, Bound.of], rfl⟩
  have hneg := neg_lt_zero.2 ((nonneg_of_mem h hd).lt_of_ne' hd0)
  rw [ceilingRem_eq]
  refine mem_nonposRem (floorRem_of_neg hneg).2 (fun b hb => .inl ?_)
    fun hminus => ⟨n, hn, le_floorRem (nonpos_of_minus hminus hn) hneg⟩
  exact ((mem_intervalNeg hd).1 b hb).le.trans_lt (floorRem_of_neg hneg).1

theorem ceilingRemBound_minus (hx : ∃ n, n ∈ x) (h : intervalRangeInfo y 0 = some .minus) :
    RemSound ceilingRem (ceilingRemBound x y) x y := by
  obtain ⟨n₀, hn₀⟩ := hx
  refine ⟨nonnegRem false x (intervalNeg y), ?_, mem_nonnegRem le_rfl (fun b hb => ?_)
    fun hplus => ⟨n₀, hn₀, nonneg_of_mem hplus hn₀⟩, fun n hn d hd hd0 => ?_⟩
  · unfold ceilingRemBound
    rw [h, intervalAbs_minus h]
    rfl
  · obtain ⟨c, hc, rfl⟩ := high_neg_eq hb
    exact .inl (by simpa using low_neg_of_minus h c hc)
  have hpos := neg_pos.2 ((nonpos_of_minus h hd).lt_of_ne hd0)
  rw [ceilingRem_eq]
  refine mem_nonnegRem (floorRem_of_pos hpos).1 (fun b hb => .inl ?_)
    fun hplus => ⟨n, hn, floorRem_le (nonneg_of_mem hplus hn) hpos⟩
  exact (floorRem_of_pos hpos).2.trans_le ((mem_intervalNeg hd).2 b hb).le

theorem abs_floorRem_lt (hd : d ≠ 0) : |floorRem n d| < |d| := by
  rcases lt_or_gt_of_ne hd with h | h
  · rw [abs_of_nonpos (floorRem_of_neg h).2, abs_of_neg h]
    exact neg_lt_neg (floorRem_of_neg h).1
  · rw [abs_of_nonneg (floorRem_of_pos h).1, abs_of_pos h]
    exact (floorRem_of_pos h).2

theorem eitherRem_sound (hrem : ∀ n d, d ≠ 0 → |rem n d| < |d|) (h : intervalRangeInfo y 0 = none) :
    RemSound rem (eitherRem y) x y := by
  obtain ⟨z, hz, -, hmem⟩ := intervalAbs_sound y
  have hsound {r c : ℚ} (hc : c ∈ y) (hrc : |r| < |c|) :
      r ∈ (⟨(typeBoundNumber z.high).map fun l => .strict (-l),
        (typeBoundNumber z.high).map .strict⟩ : Interval) := by
    have hlt (b : Bound) (hb : b ∈ z.high) := abs_lt.1 (hrc.trans_le ((hmem c hc).2 b hb).le)
    refine ⟨fun b hb => ?_, fun b hb => ?_⟩
    · obtain ⟨v, hv, rfl⟩ := map_eq_some_iff.1 hb
      obtain ⟨c, hc, rfl⟩ := map_eq_some_iff.1 hv
      exact Bound.below_of_lt (hlt c hc).1
    · obtain ⟨v, hv, rfl⟩ := map_eq_some_iff.1 hb
      obtain ⟨c, hc, rfl⟩ := map_eq_some_iff.1 hv
      exact Bound.above_of_lt (hlt c hc).2
  refine ⟨_, by unfold eitherRem; rw [hz]; rfl, ?_, fun n _ d hd hd0 => hsound hd (hrem n d hd0)⟩
  obtain ⟨c, hc, hpos⟩ := exists_pos_mem h
  exact hsound hc (by simpa using hpos.ne')

theorem floorRemBound_sound (hx : ∃ n, n ∈ x) (hy : ∃ d, d ∈ y) :
    RemSound floorRem (floorRemBound x y) x y := by
  rcases h : intervalRangeInfo y 0 with _ | ⟨_ | _⟩
  · have heq : floorRemBound x y = eitherRem y := by
      unfold floorRemBound
      rw [h]
    rw [heq]
    exact eitherRem_sound (fun n d => abs_floorRem_lt) h
  · exact floorRemBound_plus hx hy h
  · exact floorRemBound_minus hx h

theorem ceilingRemBound_sound (hx : ∃ n, n ∈ x) (hy : ∃ d, d ∈ y) :
    RemSound ceilingRem (ceilingRemBound x y) x y := by
  rcases h : intervalRangeInfo y 0 with _ | ⟨_ | _⟩
  · have heq : ceilingRemBound x y = eitherRem y := by
      unfold ceilingRemBound
      rw [h]
    rw [heq]
    refine eitherRem_sound (fun n d hd => ?_) h
    rw [ceilingRem_eq, ← abs_neg d]
    exact abs_floorRem_lt (neg_ne_zero.2 hd)
  · exact ceilingRemBound_plus hx hy h
  · exact ceilingRemBound_minus hx h

/-! ## Remainders of `truncate` -/

abbrev TruncateRemSound (x y : Interval) : Prop := RemSound truncateRem (truncateRemBound x y) x y

theorem truncateRem_eq (hx : intervalRangeInfo x 0 = some s)
    (hy : intervalRangeInfo y 0 = some t) (hn : n ∈ x)
    (hd : d ∈ y) : truncateRem n d = if s = t then floorRem n d else ceilingRem n d := by
  cases s with
  | plus =>
    have hn0 := nonneg_of_mem hx hn
    cases t with
    | plus => rw [truncateRem, truncateRational_of_nonneg (div_nonneg hn0 (nonneg_of_mem hy hd)),
      if_pos rfl]
    | minus =>
      rw [truncateRem,
        truncateRational_of_nonpos (div_nonpos_of_nonneg_of_nonpos hn0 (nonpos_of_minus hy hd)),
        if_neg nofun]
  | minus =>
    have hn0 := nonpos_of_minus hx hn
    cases t with
    | plus =>
      rw [truncateRem,
        truncateRational_of_nonpos (div_nonpos_of_nonpos_of_nonneg hn0 (nonneg_of_mem hy hd)),
        if_neg nofun]
    | minus => rw [truncateRem,
      truncateRational_of_nonneg (div_nonneg_of_nonpos hn0 (nonpos_of_minus hy hd)), if_pos rfl]

theorem truncateRemSound_of_signs (hxs : intervalRangeInfo x 0 = some s)
    (hyt : intervalRangeInfo y 0 = some t)
    (hx : ∃ n, n ∈ x) (hy : ∃ d, d ∈ y) : TruncateRemSound x y := by
  have heq : truncateRemBound x y = if s = t then floorRemBound x y else ceilingRemBound x y := by
    rw [truncateRemBound, if_neg (by simp [hxs]), if_neg (by simp [hyt]), hxs, hyt]
    simp only [Option.some.injEq]
  obtain ⟨f, hf, hf0, hfmem⟩ := floorRemBound_sound hx hy
  obtain ⟨c, hc, hc0, hcmem⟩ := ceilingRemBound_sound hx hy
  by_cases hst : s = t
  · refine ⟨f, by rw [heq, if_pos hst, hf], hf0, fun n hn d hd hd0 => ?_⟩
    rw [truncateRem_eq hxs hyt hn hd, if_pos hst]
    exact hfmem n hn d hd hd0
  · refine ⟨c, by rw [heq, if_neg hst, hc], hc0, fun n hn d hd hd0 => ?_⟩
    rw [truncateRem_eq hxs hyt hn hd, if_neg hst]
    exact hcmem n hn d hd hd0

theorem remSound_merged {x₁ x₂ y₁ y₂ : Interval} {b₁ b₂ bound : Except Failure Interval}
    (h₁ : RemSound rem b₁ x₁ y₁) (h₂ : RemSound rem b₂ x₂ y₂)
    (heq : ∀ r₁ r₂, b₁ = .ok r₁ → b₂ = .ok r₂ → bound = merged r₁ r₂)
    (hparts : ∀ n ∈ x, ∀ d ∈ y, d ≠ 0 → n ∈ x₁ ∧ d ∈ y₁ ∨ n ∈ x₂ ∧ d ∈ y₂) :
    RemSound rem bound x y := by
  obtain ⟨r₁, hr₁, h0₁, hmem₁⟩ := h₁
  obtain ⟨r₂, hr₂, h0₂, hmem₂⟩ := h₂
  obtain ⟨r, hr, hmem⟩ := merged_sound h0₁ h0₂
  refine ⟨r, (heq r₁ r₂ hr₁ hr₂).trans hr, hmem 0 (.inl h0₁), fun n hn d hd hd0 => hmem _ ?_⟩
  rcases hparts n hn d hd hd0 with ⟨hn, hd⟩ | ⟨hn, hd⟩
  · exact .inl (hmem₁ n hn d hd hd0)
  · exact .inr (hmem₂ n hn d hd hd0)

theorem exists_mem_split_left (h : intervalRangeInfo x 0 = none) :
    ∃ a, a ∈ (intervalSplit 0 x true true).1 :=
  ⟨0, mem_split_left (zero_mem h) le_rfl⟩

theorem exists_mem_split_right (h : intervalRangeInfo x 0 = none) :
    ∃ a, a ∈ (intervalSplit 0 x true true).2 :=
  (exists_pos_mem h).imp fun _ ha => mem_split_right ha.1 ha.2

theorem mem_split_or (ha : a ∈ x) : a ∈ (intervalSplit 0 x true true).1 ∨
    a ∈ (intervalSplit 0 x true true).2 :=
  (le_or_gt a 0).imp (mem_split_left ha) (mem_split_right ha)

theorem truncateRemSound_of_sign (hxs : intervalRangeInfo x 0 = some s) (hx : ∃ n, n ∈ x)
    (hy : ∃ d, d ∈ y) : TruncateRemSound x y := by
  rcases hyt : intervalRangeInfo y 0 with _ | t
  · refine remSound_merged (truncateRemSound_of_signs hxs (rangeInfo_split_left hyt) hx
      (exists_mem_split_left hyt))
      (truncateRemSound_of_signs hxs (rangeInfo_split_right y) hx (exists_mem_split_right hyt))
        (fun r₁ r₂ h₁ h₂ => ?_)
      fun n hn d hd _ => (mem_split_or hd).imp (⟨hn, ·⟩) (⟨hn, ·⟩)
    rw [truncateRemBound, if_neg (by simp [hxs]), if_pos hyt, h₁, h₂]
    rfl
  · exact truncateRemSound_of_signs hxs hyt hx hy

theorem truncateRemBound_sound (hx : ∃ n, n ∈ x) (hy : ∃ d, d ∈ y) : TruncateRemSound x y := by
  rcases hxs : intervalRangeInfo x 0 with _ | s
  · refine remSound_merged (truncateRemSound_of_sign (rangeInfo_split_left hxs)
      (exists_mem_split_left hxs) hy)
      (truncateRemSound_of_sign (rangeInfo_split_right x) (exists_mem_split_right hxs) hy)
        (fun r₁ r₂ h₁ h₂ => ?_)
      fun n hn d hd _ => (mem_split_or hn).imp (⟨·, hd⟩) (⟨·, hd⟩)
    rw [truncateRemBound, if_pos hxs, h₁, h₂]
    rfl
  · exact truncateRemSound_of_sign hxs hx hy

/-! ## Quotients of integers -/

theorem tdiv_le_tdiv_of_le {a b c d : ℤ} (ha : 0 ≤ a) (hab : a ≤ b) (hc : 0 < c) (hcd : c ≤ d) :
    a.tdiv d ≤ b.tdiv c := by
  rw [tdiv_eq_ediv_of_nonneg ha, tdiv_eq_ediv_of_nonneg (ha.trans hab)]
  refine Int.le_ediv_of_mul_le hc ?_
  calc a / d * c ≤ a / d * d := mul_le_mul_of_nonneg_left hcd (ediv_nonneg ha (hc.le.trans hcd))
    _ ≤ a := Int.ediv_mul_le a (hc.trans_le hcd).ne'
    _ ≤ b := hab

/-- The number of a sign; an absent one is of either. -/
def HasSign (s : Option Sign) (n : ℤ) : Prop := (s = some .plus → 0 ≤ n) ∧ (s = some .minus → n ≤ 0)

/-- What `numeric-union-info` says of a number in the range. -/
structure UnionInfo (low high : Option ℤ) (info : Option Sign × ℤ × Option ℤ) (n : ℤ) : Prop where
  sign : HasSign info.1 n
  min_nonneg : 0 ≤ info.2.1
  min_le : info.2.1 ≤ |n|
  le_max : ∀ m ∈ info.2.2, |n| ≤ m
  straddles : info.1 = none → (∀ l ∈ low, l < 0) ∧ ∀ h ∈ high, 0 < h

theorem unionInfo_of_mem {t : IntegerType} {n : ℤ} (hn : n ∈ t) :
    UnionInfo t.low t.high (numericUnionInfo t.low t.high) n := by
  have hlow := hn.1
  have hhigh := hn.2
  unfold numericUnionInfo
  split
  · rename_i low hl
    obtain ⟨hl, h0⟩ := filter_eq_some_iff.1 hl
    have h0 : 0 ≤ low := by simpa using h0
    have hn0 : 0 ≤ n := h0.trans (hlow low hl)
    refine ⟨⟨fun _ => hn0, nofun⟩, h0, ?_, fun m hm => ?_, nofun⟩
    · exact (hlow low hl).trans (le_abs_self n)
    · exact (abs_of_nonneg hn0).trans_le (hhigh m hm)
  · rename_i high _ hh
    obtain ⟨hh, h0⟩ := filter_eq_some_iff.1 hh
    have h0 : high ≤ 0 := by simpa using h0
    have hn0 : n ≤ 0 := (hhigh high hh).trans h0
    refine ⟨⟨nofun, fun _ => hn0⟩, neg_nonneg.2 h0, ?_, fun m hm => ?_, nofun⟩
    · exact (neg_le_neg (hhigh high hh)).trans (neg_le_abs n)
    · obtain ⟨low, hl, rfl⟩ := map_eq_some_iff.1 hm
      exact (abs_of_nonpos hn0).trans_le (neg_le_neg (hlow low hl))
  · rename_i hl hh
    rw [filter_eq_none_iff] at hl hh
    refine ⟨⟨nofun, nofun⟩, le_rfl, abs_nonneg n, fun m hm => ?_,
      fun _ => ⟨fun l h => ?_, fun b h => ?_⟩⟩
    · obtain ⟨low, hl, hm⟩ := bind_eq_some_iff.1 hm
      obtain ⟨high, hh, hm⟩ := bind_eq_some_iff.1 hm
      obtain rfl := Option.some.inj hm
      exact abs_le'.2 ⟨(hhigh high hh).trans (le_max_right _ _),
        (neg_le_neg (hlow low hl)).trans (le_max_left _ _)⟩
    · simpa using hl l h
    · simpa using hh b h

theorem tdiv_eq_of_signs {n d : ℤ} (hn : HasSign (some s) n) (hd : HasSign (some t) d) :
    n.tdiv d = if s = t then |n|.tdiv |d| else -|n|.tdiv |d| := by
  cases s with
  | plus =>
    rw [abs_of_nonneg (hn.1 rfl)]
    cases t with
    | plus => rw [abs_of_nonneg (hd.1 rfl), if_pos rfl]
    | minus => rw [abs_of_nonpos (hd.2 rfl), if_neg nofun, Int.tdiv_neg, neg_neg]
  | minus =>
    rw [abs_of_nonpos (hn.2 rfl)]
    cases t with
    | plus => rw [abs_of_nonneg (hd.1 rfl), if_neg nofun, Int.neg_tdiv, neg_neg]
    | minus => rw [abs_of_nonpos (hd.2 rfl), if_pos rfl, Int.neg_tdiv_neg]

theorem abs_tdiv (n d : ℤ) : |n.tdiv d| = |n|.tdiv |d| := by
  have hpos : 0 ≤ |n|.tdiv |d| := Int.tdiv_nonneg (abs_nonneg n) (abs_nonneg d)
  have hsign (k : ℤ) : ∃ s, HasSign (some s) k := by
    rcases le_total 0 k with h | h
    · exact ⟨.plus, fun _ => h, nofun⟩
    · exact ⟨.minus, nofun, fun _ => h⟩
  obtain ⟨s, hs⟩ := hsign n
  obtain ⟨t, ht⟩ := hsign d
  rw [tdiv_eq_of_signs hs ht]
  split_ifs
  · exact abs_of_nonneg hpos
  · rw [abs_neg, abs_of_nonneg hpos]

theorem tdiv_between {low high : Option ℤ} {n c d : ℤ} (hlow : ∀ l ∈ low, l ≤ n ∧ l < 0)
    (hhigh : ∀ h ∈ high, n ≤ h ∧ 0 < h)
    (hc : 0 < c) (hcd : c ≤ d) : (∀ l ∈ low, l.tdiv c ≤ n.tdiv d) ∧ ∀ h ∈ high,
      n.tdiv d ≤ h.tdiv c := by
  have hd : 0 < d := hc.trans_le hcd
  have hneg {a b : ℤ} (hab : a ≤ b) (hb : b ≤ 0) : a.tdiv c ≤ b.tdiv d := by
    have h := tdiv_le_tdiv_of_le (neg_nonneg.2 hb) (neg_le_neg hab) hc hcd
    rwa [Int.neg_tdiv, Int.neg_tdiv, neg_le_neg_iff] at h
  refine ⟨fun l hl => ?_, fun h hh => ?_⟩
  · rcases le_total 0 n with hn | hn
    · have hl0 := hneg (hlow l hl).2.le le_rfl
      rw [Int.zero_tdiv] at hl0
      exact hl0.trans (Int.tdiv_nonneg hn hd.le)
    · exact hneg (hlow l hl).1 hn
  · rcases le_total 0 n with hn | hn
    · exact tdiv_le_tdiv_of_le hn (hhigh h hh).1 hc hcd
    · have hn0 : n.tdiv d ≤ 0 := (Int.tdiv_le_tdiv hd hn).trans_eq (Int.zero_tdiv d)
      exact hn0.trans (Int.tdiv_nonneg (hhigh h hh).2.le hc.le)

theorem derives_integerTruncate {nt dt : IntegerType} {n d : ℤ} (hn : n ∈ nt)
    (hd : d ∈ dt) (hd0 : d ≠ 0) :
    Derives (integerTruncateDeriveType nt.low nt.high dt.low dt.high) (n.tdiv d) := by
  have hnum := unionInfo_of_mem hn
  have hdiv := unionInfo_of_mem hd
  unfold integerTruncateDeriveType
  rcases hninfo : numericUnionInfo nt.low nt.high with ⟨ns, nmin, nmax⟩
  rcases hdinfo : numericUnionInfo dt.low dt.high with ⟨ds, dmin, dmax⟩
  rw [hninfo] at hnum
  rw [hdinfo] at hdiv
  obtain ⟨hns, hnmin, hnle, hnmax, hnstraddle⟩ := hnum
  obtain ⟨hds, hdmin, hdle, hdmax, -⟩ := hdiv
  dsimp only at *
  intro u hu
  by_cases hzero : dmax = some 0
  · rw [if_pos hzero] at hu
    cases hu
  rw [if_neg hzero] at hu
  obtain rfl := Option.some.inj hu
  set c := if dmin = 0 then dmin + 1 else dmin with hc
  have hdpos : 0 < |d| := abs_pos.2 hd0
  have hcpos : 0 < c := by
    rw [hc]
    split_ifs <;> omega
  have hcle : c ≤ |d| := by
    rw [hc]
    split_ifs <;> omega
  have hupper : ∀ m ∈ nmax, |n|.tdiv |d| ≤ m.tdiv c := fun m hm =>
    tdiv_le_tdiv_of_le (abs_nonneg n) (hnmax m hm) hcpos hcle
  have hlower : (dmax.map fun m => nmin.tdiv m).getD 0 ≤ |n|.tdiv |d| := by
    cases dmax with
    | none => exact Int.tdiv_nonneg (abs_nonneg n) hdpos.le
    | some m => exact tdiv_le_tdiv_of_le hnmin hnle hdpos (hdmax m rfl)
  have hstraddle (h : ns = none) : (∀ l ∈ nt.low, l.tdiv c ≤ n.tdiv |d|) ∧ ∀ h ∈ nt.high,
      n.tdiv |d| ≤ h.tdiv c :=
    tdiv_between (fun l hl => ⟨hn.1 l hl, (hnstraddle h).1 l hl⟩) (fun b hb =>
      ⟨hn.2 b hb, (hnstraddle h).2 b hb⟩) hcpos hcle
  split
  · rename_i s t
    rw [tdiv_eq_of_signs hns hds]
    split_ifs with hst
    · refine mem_specifierInteger ?_ fun m hm => ?_
      · rintro _ ⟨⟩
        exact hlower
      · obtain ⟨k, hk, rfl⟩ := map_eq_some_iff.1 hm
        exact hupper k hk
    · refine mem_specifierInteger (fun m hm => ?_) ?_
      · obtain ⟨k, hk, rfl⟩ := map_eq_some_iff.1 hm
        exact neg_le_neg (hupper k hk)
      · rintro _ ⟨⟩
        refine (neg_le_neg hlower).trans_eq ?_
        cases dmax <;> rfl
  · rw [← abs_of_nonneg (hds.1 rfl)]
    refine mem_specifierInteger (fun m hm => ?_) fun m hm => ?_
    · obtain ⟨k, hk, rfl⟩ := map_eq_some_iff.1 hm
      exact (hstraddle rfl).1 k hk
    · obtain ⟨k, hk, rfl⟩ := map_eq_some_iff.1 hm
      exact (hstraddle rfl).2 k hk
  · have hq : n.tdiv d = -n.tdiv |d| := by rw [abs_of_nonpos (hds.2 rfl), Int.tdiv_neg, neg_neg]
    rw [hq]
    refine mem_specifierInteger (fun m hm => ?_) fun m hm => ?_
    · obtain ⟨k, hk, rfl⟩ := map_eq_some_iff.1 hm
      exact neg_le_neg ((hstraddle rfl).2 k hk)
    · obtain ⟨k, hk, rfl⟩ := map_eq_some_iff.1 hm
      exact neg_le_neg ((hstraddle rfl).1 k hk)
  · split
    · rename_i m
      have hbound := (abs_tdiv n d).trans_le (hupper m rfl)
      refine mem_specifierInteger ?_ ?_ <;> rintro _ ⟨⟩
      · exact (abs_le.1 hbound).1
      · exact (abs_le.1 hbound).2
    · exact mem_specifierInteger nofun nofun

theorem divSound_rational (x y : Interval) : DivSound false x y := by
  rcases hy : intervalRangeInfo y 0 with _ | t
  · exact ⟨_, intervalDiv_of_none x hy, fun _ _ _ _ _ _ => mem_unbounded _⟩
  · exact divSound_of_sign false x hy

/-- Quotients and remainders are within the bounds that are made of the bounds of a number and a
divisor, and no merge on the way is nil. -/
theorem rounding_bounds_sound (x y : Interval) (hx : ∃ n, n ∈ x) (hy : ∃ d, d ∈ y) :
    (∃ z t, intervalDiv x y false = .ok (.interval z) ∧ truncateQuotientBound z = .ok t ∧
      ∀ n ∈ x, ∀ d ∈ y, d ≠ 0 → (⌊n / d⌋ : ℚ) ∈ floorQuotientBound z ∧
        (⌈n / d⌉ : ℚ) ∈ ceilingQuotientBound z ∧ (truncateRational (n / d) : ℚ) ∈ t) ∧
    (∃ f c t, floorRemBound x y = .ok f ∧ ceilingRemBound x y = .ok c ∧
      truncateRemBound x y = .ok t ∧
      ∀ n ∈ x, ∀ d ∈ y, d ≠ 0 → floorRem n d ∈ f ∧ ceilingRem n d ∈ c ∧ truncateRem n d ∈ t) ∧
    ∀ (nt dt : IntegerType) (n d : ℤ), n ∈ nt → d ∈ dt → d ≠ 0 →
      Derives (integerTruncateDeriveType nt.low nt.high dt.low dt.high) (n.tdiv d) := by
  obtain ⟨z, hz, hquot⟩ := divSound_rational x y
  obtain ⟨t, ht, htrunc⟩ := truncateQuotientBound_sound z
  obtain ⟨f, hf, -, hfloor⟩ := floorRemBound_sound hx hy
  obtain ⟨c, hc, -, hceiling⟩ := ceilingRemBound_sound hx hy
  obtain ⟨r, hr, -, hrem⟩ := truncateRemBound_sound hx hy
  refine ⟨⟨z, t, hz, ht, fun n hn d hd hd0 => ?_⟩, ⟨f, c, r, hf, hc, hr, fun n hn d hd hd0 => ?_⟩,
    fun nt dt n d hn hd hd0 => derives_integerTruncate hn hd hd0⟩
  · have hmem := hquot n hn d hd hd0 nofun
    exact ⟨mem_floorQuotientBound hmem, mem_ceilingQuotientBound hmem, htrunc _ hmem⟩
  · exact ⟨hfloor n hn d hd hd0, hceiling n hn d hd hd0, hrem n hn d hd hd0⟩

/-- The remainders of `-7` by a half and by 3, in the bounds of a number from `-7` up and a divisor
from 0, not included, to 3. -/
theorem rounding_bounds_sound_small :
    ∃ r, truncateRemBound ⟨some (.closed (-7)), none⟩ ⟨some (.strict 0), some (.closed 3)⟩ = .ok r ∧
    truncateRem (-7) (1 / 2) ∈ r ∧ truncateRem (-7) 3 ∈ r := by
  have h3 : (3 : ℚ) ∈ (⟨some (.strict 0), some (.closed 3)⟩ : Interval) :=
    ⟨fun b hb => by cases hb; exact Bound.below_of_lt (by norm_num),
      fun b hb => by cases hb; exact ⟨le_rfl, nofun⟩⟩
  have hhalf : (1 / 2 : ℚ) ∈ (⟨some (.strict 0), some (.closed 3)⟩ : Interval) :=
    ⟨fun b hb => by cases hb; exact Bound.below_of_lt (by norm_num),
      fun b hb => by cases hb; exact Bound.above_of_lt (by norm_num)⟩
  have hn : (-7 : ℚ) ∈ (⟨some (.closed (-7)), none⟩ : Interval) :=
    ⟨fun b hb => by cases hb; exact ⟨le_rfl, nofun⟩, nofun⟩
  obtain ⟨-, ⟨f, c, r, -, -, hr, hmem⟩, -⟩ := rounding_bounds_sound _ _ ⟨_, hn⟩ ⟨_, h3⟩
  exact ⟨r, hr, (hmem _ hn _ hhalf (by norm_num)).2.2, (hmem _ hn _ h3 (by norm_num)).2.2⟩

end Sbcl.Compiler
