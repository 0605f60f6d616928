import Sbcl.Types.RangeBounds

/-!
# What the runs of rational ranges mean

* `exists_from`, `exists_upto` : a bound of a run is next to a number of the run;
* `coerceRationalBound_low`, `coerceRationalBound_high` : rounding a bound to a run keeps the
  numbers of the run;
* `Triple.denotes`, `Good`, `collapseRationalRun_spec` : a collapsed range has numbers of all its
  runs;
* `joinP_spec` : two ranges are joined if none of their numbers is left out between them.
-/

namespace Sbcl.RationalRange

open Set
open Bound (mem_before_closed mem_before_neg mem_before_opened mem_upto_closed)

variable {run : Run} {y : ℚ}

/-! ## Numbers next to a bound -/

theorem has_of_isInt (h : run ≠ rangeRatioRun) (hzero : run ≠ 0)
    (hy : y.isInt = true) : run.Has y := by
  rcases run_cases run with rfl | rfl | rfl | rfl
  · exact absurd rfl hzero
  · exact has_integer.2 hy
  · exact absurd rfl h
  · exact has_rational

theorem has_of_ratio (h : run ≠ rangeIntegerRun) (hzero : run ≠ 0)
    (hy : ¬ y.isInt = true) : run.Has y := by
  rcases run_cases run with rfl | rfl | rfl | rfl
  · exact absurd rfl hzero
  · exact absurd rfl h
  · exact has_ratio.2 hy
  · exact has_rational

theorem exists_from {low : Bound} {upper : Set ℚ} (hvalid : low.ValidFor run) (hrun : run ≠ 0)
    (hupper : IsLowerSet upper)
    (h : ¬ upper ⊆ low.before) : ∃ y, run.Has y ∧ y ∉ low.before ∧ y ∈ upper := by
  obtain ⟨z, hz, hlow⟩ := not_subset.1 h
  by_cases hint : run = rangeIntegerRun
  · subst hint
    rcases hvalid.integer rfl with rfl | ⟨n, rfl⟩
    · exact ⟨_, has_integer.2 (isInt_intCast ⌊z⌋), notMem_empty _, hupper (Int.floor_le z) hz⟩
    · exact ⟨n, has_integer.2 (isInt_intCast n), fun h => lt_irrefl _ (mem_before_closed.1 h),
        hupper (not_lt.1 fun h => hlow (mem_before_closed.2 h)) hz⟩
  cases low with
  | absent =>
    obtain ⟨y, -, hy, hratio⟩ := exists_ratio (sub_one_lt z)
    exact ⟨y, has_of_ratio hint hrun hratio, notMem_empty _, hupper hy.le hz⟩
  | closed x =>
    refine ⟨x, ?_, fun h => lt_irrefl _ (mem_before_closed.1 h),
      hupper (not_lt.1 fun h => hlow (mem_before_closed.2 h)) hz⟩
    by_cases hx : x.isInt = true
    · refine has_of_isInt (fun heq => ?_) hrun hx
      obtain ⟨n, rfl⟩ := isInt_iff.1 hx
      exact hvalid.ratio heq n rfl
    · exact has_of_ratio hint hrun hx
  | opened x =>
    have hxz : x < z := not_le.1 fun h => hlow (mem_before_opened.2 h)
    obtain ⟨y, hxy, hy, hratio⟩ := exists_ratio hxz
    exact ⟨y, has_of_ratio hint hrun hratio, fun h => not_lt_of_ge (mem_before_opened.1 h) hxy,
      hupper hy.le hz⟩

theorem exists_upto {high : Bound} {lower : Set ℚ} (hvalid : high.ValidFor run) (hrun : run ≠ 0)
    (hlower : IsLowerSet lower)
    (h : ¬ high.upto ⊆ lower) : ∃ y, run.Has y ∧ y ∉ lower ∧ y ∈ high.upto := by
  have hupper : IsLowerSet {y : ℚ | -y ∉ lower} :=
    fun a b hba ha hb => ha (hlower (neg_le_neg hba) hb)
  obtain ⟨y, hhas, hlow, hy⟩ := exists_from hvalid.neg hrun hupper fun hsub => h fun z hz => by
    by_contra hz'
    refine mem_before_neg.1 (hsub (?_ : -z ∈ {y : ℚ | -y ∉ lower})) ?_
    · show - -z ∉ lower
      rwa [neg_neg]
    · rwa [neg_neg]
  exact ⟨-y, has_neg.2 hhas, hy, not_not.1 fun hnot => hlow (mem_before_neg.2 hnot)⟩

/-! ## Rounding a bound to a run -/

theorem coerceRationalBound_neg (x : Bound) (low : Bool) :
    coerceRationalBound x.neg low run = (coerceRationalBound x (!low) run).neg := by
  cases x with
  | absent => rfl
  | closed x =>
    simp only [coerceRationalBound, Bound.neg, isInt_neg]
    split
    · cases low <;> simp [Int.ceil_neg, Int.floor_neg]
    · split <;> rfl
  | opened x =>
    simp only [coerceRationalBound, Bound.neg]
    split
    · cases low with
      | false =>
        have hsub : -x - 1 = -(1 + x) := by ring
        show Bound.closed (⌈-x - 1⌉ : ℤ) = .closed (-((⌊1 + x⌋ : ℤ) : ℚ))
        rw [hsub, Int.ceil_neg, Int.cast_neg]
      | true =>
        have hsub : 1 + -x = -(x - 1) := by ring
        show Bound.closed (⌊1 + -x⌋ : ℤ) = .closed (-((⌈x - 1⌉ : ℤ) : ℚ))
        rw [hsub, Int.floor_neg, Int.cast_neg]
    · rfl

/-- A low bound rounded to a run. -/
structure Coerced (run : Run) (x low : Bound) : Prop where
  valid : low.ValidFor run
  subset : x.before ⊆ low.before
  same : ∀ y, run.Has y → y ∈ low.before → y ∈ x.before

theorem coerceRationalBound_low (x : Bound) : Coerced run x (coerceRationalBound x true run) := by
  cases x with
  | absent => exact ⟨⟨fun _ => .inl rfl, fun _ _ h => nomatch h⟩, subset_rfl, fun _ _ hy => hy⟩
  | closed x =>
    simp only [coerceRationalBound]
    split
    · subst run
      refine ⟨⟨fun _ => .inr ⟨_, rfl⟩, fun h => absurd h (by decide)⟩,
        fun y hy => lt_of_lt_of_le (mem_before_closed.1 hy) (Int.le_ceil x), fun y hrun hy => ?_⟩
      obtain ⟨n, rfl⟩ := isInt_iff.1 (has_integer.1 hrun)
      exact Int.lt_ceil.1 (Int.cast_lt.1 (mem_before_closed.1 hy))
    · rename_i hint
      split
      · rename_i hratio
        refine ⟨⟨fun h => absurd h hint, fun _ _ h => nomatch h⟩,
          fun y hy => le_of_lt (mem_before_closed.1 hy),
          fun y hrun hy => lt_of_le_of_ne (mem_before_opened.1 hy) fun heq => ?_⟩
        rw [hratio.1, has_ratio, heq] at hrun
        exact hrun hratio.2
      · rename_i hratio
        refine ⟨⟨fun h => absurd h hint, fun h n heq => hratio ⟨h, ?_⟩⟩, subset_rfl,
          fun _ _ hy => hy⟩
        injection heq with heq
        exact isInt_iff.2 ⟨n, heq⟩
  | opened x =>
    simp only [coerceRationalBound]
    split
    · subst run
      have hlt : x < (⌊1 + x⌋ : ℤ) := by
        have hfloor := Int.lt_floor_add_one (1 + x)
        linarith
      refine ⟨⟨fun _ => .inr ⟨_, rfl⟩, fun h => absurd h (by decide)⟩,
        fun y hy => lt_of_le_of_lt (mem_before_opened.1 hy) hlt, fun y hrun hy => ?_⟩
      obtain ⟨n, rfl⟩ := isInt_iff.1 (has_integer.1 hrun)
      have hn : n < ⌊1 + x⌋ := Int.cast_lt.1 (mem_before_closed.1 hy)
      have hle : ((n + 1 : ℤ) : ℚ) ≤ 1 + x := Int.le_floor.1 (by omega)
      push_cast at hle
      exact mem_before_opened.2 (by linarith)
    · rename_i hint
      exact ⟨⟨fun h => absurd h hint, fun _ _ h => nomatch h⟩, subset_rfl, fun _ _ hy => hy⟩

/-- A high bound rounded to a run. -/
structure CoercedHigh (run : Run) (x high : Bound) : Prop where
  valid : high.ValidFor run
  subset : high.upto ⊆ x.upto
  same : ∀ y, run.Has y → y ∈ x.upto → y ∈ high.upto

theorem coerceRationalBound_high (x : Bound) :
    CoercedHigh run x (coerceRationalBound x false run) := by
  obtain ⟨hvalid, hsubset, hsame⟩ := @coerceRationalBound_low run x.neg
  have hneg : coerceRationalBound x.neg true run = (coerceRationalBound x false run).neg :=
    coerceRationalBound_neg x true
  rw [hneg] at hvalid hsubset hsame
  refine ⟨?_, Bound.before_neg_subset.1 hsubset, fun y hrun hy => ?_⟩
  · rw [← Bound.neg_neg_eq (coerceRationalBound x false run)]
    exact hvalid.neg
  by_contra hhigh
  have hbefore : -y ∈ x.neg.before :=
    hsame (-y) (has_neg.2 hrun) (mem_before_neg.2 (by rwa [neg_neg]))
  rw [mem_before_neg, neg_neg] at hbefore
  exact hbefore hy

/-! ## Collapsed ranges -/

/-- The numbers from a low bound to a high bound. -/
def between (low high : Bound) : Set ℚ := {y | y ∉ low.before ∧ y ∈ high.upto}

/-- The numbers of a range. -/
def Triple.denotes (triple : Triple) : Set ℚ :=
  {y | triple.run.Has y ∧ y ∈ between triple.low triple.high}

/-- The range has numbers of all its runs. -/
structure Good (triple : Triple) : Prop where
  low : triple.low.ValidFor triple.run
  high : triple.high.ValidFor triple.run
  run : triple.run ≠ 0
  present : ∀ y, triple.run.Has y → ∃ z, kind z = kind y ∧ z ∈ between triple.low triple.high

section Collapse

variable {low high : Bound}

theorem emptyRange_iff : emptyRange low high = true ↔ high.upto ⊆ low.before := by
  rw [← lowGtHighP_iff]
  cases low <;> cases high <;> simp [emptyRange, lowGtHighP, Bound.number] <;> rintro rfl
    <;> exact le_rfl

theorem kind_of_isInt (hy : y.isInt = true) : kind y = rangeIntegerRun := if_pos hy

theorem kind_of_ratio (hy : ¬ y.isInt = true) : kind y = rangeRatioRun := if_neg hy

theorem present_both {a b : ℚ} (ha : a.isInt = true) (hb : ¬ b.isInt = true)
    (ha' : a ∈ between low high)
    (hb' : b ∈ between low high) (y : ℚ) : ∃ z, kind z = kind y ∧ z ∈ between low high := by
  by_cases hy : y.isInt = true
  · exact ⟨a, by rw [kind_of_isInt ha, kind_of_isInt hy], ha'⟩
  · exact ⟨b, by rw [kind_of_ratio hb, kind_of_ratio hy], hb'⟩

theorem kind_eq_of_has (hrun : run ≠ rangeRationalRun) {y z : ℚ} (hy : run.Has y) (hz : run.Has z) :
    kind z = kind y := by
  rcases run_cases run with rfl | rfl | rfl | rfl
  · exact absurd hy not_has_zero
  · rw [kind_of_isInt (has_integer.1 hy), kind_of_isInt (has_integer.1 hz)]
  · rw [kind_of_ratio (has_ratio.1 hy), kind_of_ratio (has_ratio.1 hz)]
  · exact absurd rfl hrun

/-- A range of one run has numbers of it, unless its bounds leave nothing. -/
theorem good_single (hrun : run ≠ rangeRationalRun) (hzero : run ≠ 0) (hlow : low.ValidFor run)
    (hhigh : high.ValidFor run) (h : ¬ high.upto ⊆ low.before) : Good ⟨run, low, high⟩ := by
  refine ⟨hlow, hhigh, hzero, fun y hy => ?_⟩
  obtain ⟨z, hz, hzlow, hzhigh⟩ := exists_from hlow hzero (Bound.isLowerSet_upto high) h
  exact ⟨z, kind_eq_of_has hrun hy hz, hzlow, hzhigh⟩

theorem validFor_rational (b : Bound) : b.ValidFor rangeRationalRun :=
  ⟨fun h => absurd h (by decide), fun h => absurd h (by decide)⟩

/-- What collapsing leaves of the run of a range. -/
structure Collapsed (run : Run) (low high : Bound) (newRun : Run) : Prop where
  good : Good ⟨newRun, low, high⟩
  same : ∀ y, y ∈ between low high → (newRun.Has y ↔ run.Has y)

theorem Collapsed.rational {a b : ℚ} (ha : a.isInt = true) (hb : ¬ b.isInt = true)
    (ha' : a ∈ between low high)
    (hb' : b ∈ between low high) : Collapsed rangeRationalRun low high rangeRationalRun where
  good := ⟨validFor_rational _, validFor_rational _, (by decide : rangeRationalRun ≠ 0),
    fun y _ => present_both ha hb ha' hb' y⟩
  same _ _ := Iff.rfl

theorem Collapsed.ratio (hlow : low.ValidFor rangeRatioRun) (hhigh : high.ValidFor rangeRatioRun)
    (h : ¬ high.upto ⊆ low.before)
    (hnone : ∀ n : ℤ, (n : ℚ) ∉ between low high) :
    Collapsed rangeRationalRun low high rangeRatioRun where
  good := good_single (by decide) (by decide) hlow hhigh h
  same y hy := by
    refine ⟨fun _ => has_rational, fun _ => has_ratio.2 fun hint => ?_⟩
    obtain ⟨n, rfl⟩ := isInt_iff.1 hint
    exact hnone n hy

theorem exists_isInt_le (y : ℚ) : ∃ a : ℚ, a.isInt = true ∧ a ≤ y :=
  ⟨⌊y⌋, isInt_intCast _, Int.floor_le y⟩

theorem exists_isInt_ge (y : ℚ) : ∃ a : ℚ, a.isInt = true ∧ y ≤ a :=
  ⟨⌈y⌉, isInt_intCast _, Int.le_ceil y⟩

theorem collapsed_absent_low (h : ¬ high.upto ⊆ Bound.absent.before) :
    Collapsed rangeRationalRun .absent high rangeRationalRun := by
  obtain ⟨z, hz, -⟩ := not_subset.1 h
  obtain ⟨a, ha, haz⟩ := exists_isInt_le z
  obtain ⟨b, -, hbz, hb⟩ := exists_ratio (sub_one_lt z)
  exact .rational ha hb ⟨notMem_empty a, high.isLowerSet_upto haz hz⟩ ⟨notMem_empty b,
    high.isLowerSet_upto hbz.le hz⟩

theorem collapsed_absent_high (h : ¬ Bound.absent.upto ⊆ low.before) :
    Collapsed rangeRationalRun low .absent rangeRationalRun := by
  obtain ⟨z, -, hz⟩ := not_subset.1 h
  obtain ⟨a, ha, hza⟩ := exists_isInt_ge z
  obtain ⟨b, hzb, -, hb⟩ := exists_ratio (lt_add_one z)
  exact .rational ha hb ⟨fun hlow => hz (low.isLowerSet_before hza hlow), mem_univ a⟩
    ⟨fun hlow => hz (low.isLowerSet_before hzb.le hlow), mem_univ b⟩

/-- A range that begins with an integer has a ratio unless it ends with it. -/
theorem collapsed_integer_low {n : ℤ} (h : ¬ high.upto ⊆ (Bound.closed n).before) :
    Collapsed rangeRationalRun (.closed n) high (if Bound.closed n = high then rangeIntegerRun
      else rangeRationalRun) := by
  have hn : (n : ℚ) ∉ (Bound.closed n).before := fun hlow => lt_irrefl _ (mem_before_closed.1 hlow)
  split
  · subst high
    refine ⟨good_single (by decide) (by decide) ?_ ?_ h, fun y hy => ?_⟩
    · exact ⟨fun _ => .inr ⟨n, rfl⟩, fun h => absurd h (by decide)⟩
    · exact ⟨fun _ => .inr ⟨n, rfl⟩, fun h => absurd h (by decide)⟩
    · refine ⟨fun _ => has_rational, fun _ => has_integer.2 (isInt_iff.2 ⟨n, ?_⟩)⟩
      exact le_antisymm (mem_upto_closed.1 hy.2) (not_lt.1 fun hlt =>
        hy.1 (mem_before_closed.2 hlt))
  · rename_i hne
    obtain ⟨z, hz, hlow⟩ := not_subset.1 h
    have hnz : (n : ℚ) ≤ z := not_lt.1 fun hlt => hlow (mem_before_closed.2 hlt)
    obtain ⟨w, hnw, hw⟩ : ∃ w : ℚ, n < w ∧ w ∈ high.upto := by
      rcases hnz.lt_or_eq with hlt | rfl
      · exact ⟨z, hlt, hz⟩
      cases high with
      | absent => exact ⟨n + 1, lt_add_one _, mem_univ _⟩
      | closed x =>
        refine ⟨x, lt_of_le_of_ne (mem_upto_closed.1 hz) fun heq => hne (by rw [heq]),
          mem_upto_closed.2 le_rfl⟩
      | opened x =>
        obtain ⟨w, hnw, hwx⟩ := exists_between (Bound.mem_upto_opened.1 hz)
        exact ⟨w, hnw, hwx⟩
    obtain ⟨b, hnb, hbw, hb⟩ := exists_ratio hnw
    exact .rational (isInt_intCast n) hb ⟨hn, high.isLowerSet_upto hnz hz⟩
      ⟨fun hlow => not_lt_of_ge hnb.le (mem_before_closed.1 hlow), high.isLowerSet_upto hbw.le hw⟩

/-- A low bound that is a number and not an integer. -/
structure After (low : Bound) (x : ℚ) : Prop where
  number : low.number = some x
  integerp : low.integerp = false

namespace After

variable {x : ℚ}

theorem cases (h : After low x) : low = .opened x ∨ low = .closed x ∧ ¬ x.isInt = true := by
  obtain ⟨hnumber, hint⟩ := h
  cases low with
  | absent => exact nomatch hnumber
  | closed z =>
    obtain rfl : z = x := Option.some.inj hnumber
    exact .inr ⟨rfl, Bool.eq_false_iff.1 hint⟩
  | opened z =>
    obtain rfl : z = x := Option.some.inj hnumber
    exact .inl rfl

theorem validFor_ratio (h : After low x) : low.ValidFor rangeRatioRun := by
  refine ⟨fun h => absurd h (by decide), fun _ n heq => ?_⟩
  have hint := h.integerp
  rw [heq, Bound.integerp, isInt_intCast] at hint
  cases hint

theorem integer (h : After low x) (n : ℤ) : (n : ℚ) ∉ low.before ↔ ⌊x⌋ < n := by
  rw [Int.floor_lt]
  rcases h.cases with rfl | ⟨rfl, hx⟩
  · rw [mem_before_opened, not_le]
  · rw [mem_before_closed, not_lt]
    exact ⟨fun hle => lt_of_le_of_ne hle fun heq => hx (isInt_iff.2 ⟨n, heq⟩), le_of_lt⟩

theorem integer_upto (h : After low x) (n : ℤ) : (n : ℚ) ∈ low.upto ↔ n < ⌈x⌉ := by
  rw [Int.lt_ceil]
  rcases h.cases with rfl | ⟨rfl, hx⟩
  · exact Bound.mem_upto_opened
  · rw [mem_upto_closed]
    exact ⟨fun hle => lt_of_le_of_ne hle fun heq => hx (isInt_iff.2 ⟨n, heq.symm⟩), le_of_lt⟩

theorem le {z : ℚ} (h : After low x) (hz : z ∉ low.before) : x ≤ z := by
  rcases h.cases with rfl | ⟨rfl, -⟩
  · exact le_of_lt (not_le.1 hz)
  · exact not_lt.1 hz

theorem exists_ratio_le {z : ℚ} (h : After low x) (hz : z ∉ low.before) : ∃ b, ¬ b.isInt = true ∧
    b ∉ low.before ∧ b ≤ z := by
  rcases h.cases with rfl | ⟨rfl, hx⟩
  · obtain ⟨b, hxb, hbz, hb⟩ := exists_ratio (not_le.1 hz)
    exact ⟨b, hb, not_le_of_gt hxb, hbz.le⟩
  · exact ⟨x, hx, lt_irrefl x, not_lt.1 hz⟩

end After

theorem upto_le {x z : ℚ} (hnumber : high.number = some x) (hz : z ∈ high.upto) : z ≤ x := by
  cases high with
  | absent => exact nomatch hnumber
  | closed w =>
    obtain rfl : w = x := Option.some.inj hnumber
    exact hz
  | opened w =>
    obtain rfl : w = x := Option.some.inj hnumber
    exact le_of_lt hz

/-- A range that does not begin with an integer has one unless there is none between its bounds. -/
theorem collapsed_after {x y : ℚ} (hlow : After low x) (hy : high.number = some y)
    (h : ¬ high.upto ⊆ low.before) : Collapsed rangeRationalRun low high
      (if ¬ high.integerp ∧ ⌈y⌉ - ⌊x⌋ = 1 then rangeRatioRun else rangeRationalRun) := by
  obtain ⟨z, hz, hzlow⟩ := not_subset.1 h
  obtain ⟨b, hb, hblow, hbz⟩ := hlow.exists_ratio_le hzlow
  have hbhigh := high.isLowerSet_upto hbz hz
  split
  · rename_i hcond
    have hhigh : After high y := ⟨hy, Bool.eq_false_iff.2 hcond.1⟩
    refine .ratio hlow.validFor_ratio hhigh.validFor_ratio h fun n hn => ?_
    have h1 := (hlow.integer n).1 hn.1
    have h2 := (hhigh.integer_upto n).1 hn.2
    omega
  · rename_i hcond
    refine .rational (isInt_intCast (⌊x⌋ + 1)) hb ⟨(hlow.integer _).2 (Int.lt_succ _),
      ?_⟩ ⟨hblow, hbhigh⟩
    by_cases hint : high.integerp = true
    · cases high with
      | absent => exact nomatch hint
      | opened w => exact nomatch hint
      | closed w =>
        obtain ⟨m, rfl⟩ := isInt_iff.1 hint
        have hm : (m : ℚ) ∉ low.before :=
          fun hm => hzlow (low.isLowerSet_before (mem_upto_closed.1 hz) hm)
        have hlt := (hlow.integer m).1 hm
        exact mem_upto_closed.2 (Int.cast_le.2 (by omega))
    · have hhigh : After high y := ⟨hy, Bool.eq_false_iff.2 hint⟩
      rw [hhigh.integer_upto]
      have hne : ⌈y⌉ - ⌊x⌋ ≠ 1 := fun heq => hcond ⟨hint, heq⟩
      have hfloor : (⌊x⌋ : ℚ) ≤ b := (Int.floor_le x).trans (hlow.le hblow)
      have hlt : (⌊x⌋ : ℚ) < b := lt_of_le_of_ne hfloor fun heq => hb (isInt_iff.2 ⟨_, heq.symm⟩)
      have hceil : (⌊x⌋ : ℚ) < ⌈y⌉ := hlt.trans_le ((upto_le hy hbhigh).trans (Int.le_ceil y))
      have hlt' : ⌊x⌋ < ⌈y⌉ := Int.cast_lt.1 hceil
      omega

theorem collapse_condition {x y : ℚ} (hx : low.number = some x) (hy : high.number = some y) :
    (low.consp = true ∧ high.consp = true ∧ x.isInt = true ∧ x + 1 = y ∨ ¬ high.integerp = true ∧
      ⌈y⌉ - ⌊x⌋ = 1) ↔ ¬ high.integerp = true ∧ ⌈y⌉ - ⌊x⌋ = 1 := by
  refine ⟨fun h => h.elim (fun ⟨_, hhigh, hint, heq⟩ => ⟨?_, ?_⟩) id, .inr⟩
  · cases high <;> simp_all [Bound.consp, Bound.integerp]
  obtain ⟨n, rfl⟩ := isInt_iff.1 hint
  subst heq
  rw [Int.ceil_add_one, Int.ceil_intCast, Int.floor_intCast]
  omega

theorem collapseRationalRun_spec (hrun : run ≠ 0) (hlow : low.ValidFor run)
    (hhigh : high.ValidFor run)
    (h : ¬ high.upto ⊆ low.before) : Collapsed run low high (collapseRationalRun run low high) := by
  by_cases hne : run = rangeRationalRun
  · subst hne
    unfold collapseRationalRun
    split
    · rename_i x y hx hy
      rw [if_neg (not_not.2 rfl)]
      by_cases hint : low.integerp = true
      · rw [if_pos hint]
        cases low with
        | absent => exact nomatch hint
        | opened w => exact nomatch hint
        | closed w =>
          obtain ⟨n, rfl⟩ := isInt_iff.1 hint
          exact collapsed_integer_low h
      · simp only [hint, Bool.false_eq_true, if_false, collapse_condition hx hy]
        exact collapsed_after ⟨hx, Bool.eq_false_iff.2 hint⟩ hy h
    · rename_i hnone
      cases low with
      | absent => exact collapsed_absent_low h
      | closed x | opened x =>
        cases high with
        | absent => exact collapsed_absent_high h
        | closed y => exact absurd rfl (hnone x y rfl)
        | opened y => exact absurd rfl (hnone x y rfl)
  · have hsame : collapseRationalRun run low high = run := by
      unfold collapseRationalRun
      split
      · rw [if_pos hne]
      · rfl
    rw [hsame]
    exact ⟨good_single hne hrun hlow hhigh h, fun _ _ => Iff.rfl⟩

end Collapse

/-! ## Joining -/

section Join

variable {leftHigh rightLow : Bound} {leftRun rightRun : Run}

/-- No number of the runs is after the first range and before the second one. -/
def Meets (leftHigh : Bound) (leftRun : Run) (rightLow : Bound) (rightRun : Run) : Prop :=
  ∀ y, (leftRun ||| rightRun).Has y → y ∈ rightLow.before → y ∈ leftHigh.upto

theorem or_eq_integer : ∀ {r s : Run}, r ≠ 0 → s ≠ 0 → r ||| s = rangeIntegerRun →
    r = rangeIntegerRun ∧ s = rangeIntegerRun := by
  decide

theorem or_ne_zero : ∀ {r s : Run}, r ≠ 0 → r ||| s ≠ 0 := by decide

theorem or_eq_ratio : ∀ {r s : Run}, r ≠ 0 → s ≠ 0 → r ||| s ≠ rangeIntegerRun →
    r ||| s ≠ rangeRationalRun → s = r ∧ r = rangeRatioRun := by
  decide

theorem or_has {y : ℚ} (hleft : leftRun ≠ 0) (hright : rightRun ≠ 0)
    (hne : leftRun ||| rightRun ≠ rangeIntegerRun)
    (hy : ¬ (rightRun = leftRun ∧ leftRun = rangeRatioRun ∧ y.isInt = true)) :
    (leftRun ||| rightRun).Has y := by
  by_cases hint : y.isInt = true
  · by_cases hq : leftRun ||| rightRun = rangeRationalRun
    · rw [hq]
      exact has_rational
    · obtain ⟨h1, h2⟩ := or_eq_ratio hleft hright hne hq
      exact absurd ⟨h1, h2, hint⟩ hy
  · exact has_of_ratio hne (or_ne_zero hleft) hint

theorem meets_integer (m n : ℤ) : Meets (.closed m) rangeIntegerRun (.closed n) rangeIntegerRun ↔
    (n : ℚ) ≤ m + 1 := by
  refine ⟨fun h => ?_, fun h y hrun hy => ?_⟩
  · by_contra hlt
    have hpred : ((n - 1 : ℤ) : ℚ) ∈ (Bound.closed (m : ℚ)).upto :=
      h _ (has_or.2 (.inl (has_integer.2 (isInt_intCast _))))
        (mem_before_closed.2 (Int.cast_lt.2 (by omega)))
    rw [mem_upto_closed] at hpred
    push_cast at hpred
    exact hlt (by linarith)
  · obtain ⟨k, rfl⟩ := isInt_iff.1 (has_integer.1 ((has_or.1 hrun).elim id id))
    have hk : k < n := Int.cast_lt.1 (mem_before_closed.1 hy)
    have hn : n ≤ m + 1 := by exact_mod_cast h
    exact mem_upto_closed.2 (Int.cast_le.2 (by omega))

theorem not_meets {a b : ℚ} (hne : leftRun ||| rightRun ≠ rangeIntegerRun) (hleft : leftRun ≠ 0)
    (ha : leftHigh.number = some a)
    (hb : ∀ y, y < b → y ∈ rightLow.before) (h : a < b) :
    ¬ Meets leftHigh leftRun rightLow rightRun := by
  intro hmeets
  obtain ⟨y, hay, hyb, hy⟩ := exists_ratio h
  exact not_lt_of_ge (upto_le ha (hmeets y (has_of_ratio hne (or_ne_zero hleft) hy) (hb y hyb))) hay

theorem joinP_numbers {a b : ℚ} (hleft : leftRun ≠ 0) (hright : rightRun ≠ 0)
    (hne : leftRun ||| rightRun ≠ rangeIntegerRun)
    (ha : leftHigh.number = some a) (hb : rightLow.number = some b) :
    (if ¬ (rightRun = leftRun ∧ leftRun = rangeRatioRun ∧ b.isInt = true) ∧ leftHigh.consp = true ∧
      rightLow.consp = true
      then decide (b < a) else decide (b ≤ a)) = true ↔
      Meets leftHigh leftRun rightLow rightRun := by
  have hbefore (y : ℚ) (hy : y < b) : y ∈ rightLow.before := by
    cases rightLow with
    | absent => exact nomatch hb
    | closed x => exact (Option.some.inj hb) ▸ hy
    | opened x => exact le_of_lt ((Option.some.inj hb) ▸ hy)
  have hout := not_meets hne hleft ha hbefore
  split
  · rename_i hcond
    obtain ⟨hrun, hconsl, hconsr⟩ := hcond
    rw [decide_eq_true_iff]
    cases leftHigh with
    | absent => exact nomatch hconsl
    | closed x => exact nomatch hconsl
    | opened x =>
      cases rightLow with
      | absent => exact nomatch hconsr
      | closed y => exact nomatch hconsr
      | opened y =>
        obtain rfl : x = a := Option.some.inj ha
        obtain rfl : y = b := Option.some.inj hb
        refine ⟨fun h z _ hz => lt_of_le_of_lt (mem_before_opened.1 hz) h, fun h => ?_⟩
        exact h y (or_has hleft hright hne hrun) (mem_before_opened.2 le_rfl)
  · rename_i hcond
    rw [decide_eq_true_iff]
    refine ⟨fun h z hz hzb => ?_, fun h => not_lt.1 fun hlt => hout hlt h⟩
    cases leftHigh with
    | absent => exact mem_univ z
    | closed x =>
      obtain rfl : x = a := Option.some.inj ha
      cases rightLow with
      | absent => exact absurd hzb (notMem_empty z)
      | closed y => exact le_trans (le_of_lt hzb) (Option.some.inj hb ▸ h)
      | opened y => exact le_trans hzb (Option.some.inj hb ▸ h)
    | opened x =>
      obtain rfl : x = a := Option.some.inj ha
      cases rightLow with
      | absent => exact absurd hzb (notMem_empty z)
      | closed y => exact lt_of_lt_of_le hzb (Option.some.inj hb ▸ h)
      | opened y =>
        obtain rfl : y = b := Option.some.inj hb
        -- both are ratios, and the bound is not one of them
        have hratio : rightRun = leftRun ∧ leftRun = rangeRatioRun ∧ y.isInt = true := by
          by_contra hnot
          exact hcond ⟨hnot, rfl, rfl⟩
        obtain ⟨rfl, rfl, hint⟩ := hratio
        rw [has_or, or_self, has_ratio] at hz
        exact lt_of_lt_of_le (lt_of_le_of_ne (mem_before_opened.1 hzb) fun heq => hz (heq ▸ hint)) h

theorem joinP_spec (hleft : leftRun ≠ 0) (hright : rightRun ≠ 0) (hhigh : leftHigh.ValidFor leftRun)
    (hlow : rightLow.ValidFor rightRun) :
    ∃ join, joinP leftHigh leftRun rightLow rightRun = some join ∧ (join = true ↔ Meets leftHigh leftRun rightLow rightRun) := by
  by_cases hrabsent : rightLow = .absent
  · subst hrabsent
    exact ⟨true, rfl, fun _ y _ hy => absurd hy (notMem_empty y), fun _ => rfl⟩
  by_cases hlabsent : leftHigh = .absent
  · subst hlabsent
    refine ⟨true, ?_, fun _ y _ _ => mem_univ y, fun _ => rfl⟩
    cases rightLow <;> rfl
  by_cases hne : leftRun ||| rightRun = rangeIntegerRun
  · obtain ⟨rfl, rfl⟩ := or_eq_integer hleft hright hne
    obtain ⟨m, rfl⟩ := (hhigh.integer rfl).resolve_left hlabsent
    obtain ⟨n, rfl⟩ := (hlow.integer rfl).resolve_left hrabsent
    exact ⟨decide ((n : ℚ) ≤ m + 1), rfl, by rw [decide_eq_true_iff, meets_integer]⟩
  obtain ⟨a, ha⟩ : ∃ a, leftHigh.number = some a := by cases leftHigh <;> first | exact ⟨_, rfl⟩ | exact absurd rfl hlabsent
  obtain ⟨b, hb⟩ : ∃ b, rightLow.number = some b := by cases rightLow <;> first | exact ⟨_, rfl⟩ | exact absurd rfl hrabsent
  refine ⟨_, ?_, joinP_numbers hleft hright hne ha hb⟩
  unfold joinP
  simp only [if_neg hne, ha, hb]
  cases leftHigh <;> cases rightLow <;> rfl

end Join

end Sbcl.RationalRange
