import Mathlib.Order.UpperLower.Basic
import Sbcl.Types.RationalRange

/-!
# What the bounds of rational ranges mean

* `Bound.before`, `Bound.upto` : the numbers before a low bound and up to a high bound; the
  comparisons are inclusions of these;
* `Run.Has`, `Bound.ValidFor` : the numbers of a run, and the bounds its ranges have;
* `Bound.neg` : low bounds become high bounds, which carries each lemma about a low bound over;
* `flipExclusion_low`, `minRationalLow_spec`, `laterLow_spec`, .. : what the arithmetic keeps of the
  integers and the ratios.
-/

namespace Sbcl.RationalRange

open Option Int Set

/-! ## Integers and ratios -/

theorem isInt_iff {y : ℚ} : y.isInt = true ↔ ∃ n : ℤ, y = n := by
  rw [Rat.isInt, beq_iff_eq]
  refine ⟨fun h => ⟨y.num, (Rat.coe_int_num_of_den_eq_one h).symm⟩, ?_⟩
  rintro ⟨n, rfl⟩
  rfl

@[simp] theorem isInt_intCast (n : ℤ) : ((n : ℤ) : ℚ).isInt = true := isInt_iff.2 ⟨n, rfl⟩

theorem isInt_neg (y : ℚ) : (-y).isInt = y.isInt := by rw [Rat.isInt, Rat.isInt, Rat.neg_den]

theorem not_isInt_of_between {y : ℚ} {n : ℤ} (hlow : n < y) (hhigh : y < n + 1) :
    ¬ y.isInt = true := by
  rw [isInt_iff]
  rintro ⟨m, rfl⟩
  have h1 : n < m := by exact_mod_cast hlow
  have h2 : m < n + 1 := by exact_mod_cast hhigh
  omega

theorem exists_ratio {a b : ℚ} (h : a < b) : ∃ y, a < y ∧ y < b ∧ ¬ y.isInt = true := by
  have hfloor : a < ⌊a⌋ + 1 := lt_floor_add_one a
  obtain ⟨y, hay, hy⟩ := exists_between (lt_min h hfloor)
  refine ⟨y, hay, (lt_min_iff.1 hy).1,
    not_isInt_of_between (lt_of_le_of_lt (floor_le a) hay) (lt_min_iff.1 hy).2⟩

/-- The run of a number. -/
def kind (y : ℚ) : Run := if y.isInt then rangeIntegerRun else rangeRatioRun

/-- The run has the number. -/
def Run.Has (run : Run) (y : ℚ) : Prop := logtest (kind y) run = true

section Has

variable {y : ℚ} {r s : Run}

@[simp] theorem has_integer : Run.Has rangeIntegerRun y ↔ y.isInt = true := by
  unfold Run.Has kind
  split <;> simp_all [logtest, rangeIntegerRun, rangeRatioRun]

@[simp] theorem has_ratio : Run.Has rangeRatioRun y ↔ ¬ y.isInt = true := by
  unfold Run.Has kind
  split <;> simp_all [logtest, rangeIntegerRun, rangeRatioRun]

@[simp] theorem has_rational : Run.Has rangeRationalRun y := by
  unfold Run.Has kind
  split <;> rfl

@[simp] theorem not_has_zero : ¬ Run.Has 0 y := by
  unfold Run.Has kind
  split <;> exact Bool.false_ne_true

theorem has_or : Run.Has (r ||| s) y ↔ r.Has y ∨ s.Has y := by
  unfold Run.Has kind
  split
  · exact (by decide : ∀ r s : Run, logtest rangeIntegerRun (r ||| s) = true ↔
      logtest rangeIntegerRun r = true ∨ logtest rangeIntegerRun s = true) r s
  · exact (by decide : ∀ r s : Run, logtest rangeRatioRun (r ||| s) = true ↔
      logtest rangeRatioRun r = true ∨ logtest rangeRatioRun s = true) r s

theorem has_and : Run.Has (r &&& s) y ↔ r.Has y ∧ s.Has y := by
  unfold Run.Has kind
  split
  · exact (by decide : ∀ r s : Run, logtest rangeIntegerRun (r &&& s) = true ↔
      logtest rangeIntegerRun r = true ∧ logtest rangeIntegerRun s = true) r s
  · exact (by decide : ∀ r s : Run, logtest rangeRatioRun (r &&& s) = true ↔
      logtest rangeRatioRun r = true ∧ logtest rangeRatioRun s = true) r s

theorem has_not : Run.Has (~~~r) y ↔ ¬ r.Has y := by
  unfold Run.Has kind
  split
  · exact (by decide : ∀ r : Run, logtest rangeIntegerRun (~~~r) = true ↔
      ¬ logtest rangeIntegerRun r = true) r
  · exact (by decide : ∀ r : Run, logtest rangeRatioRun (~~~r) = true ↔
      ¬ logtest rangeRatioRun r = true) r

theorem has_neg : r.Has (-y) ↔ r.Has y := by
  unfold Run.Has kind
  rw [isInt_neg]

theorem run_cases : ∀ r : Run, r = 0 ∨ r = rangeIntegerRun ∨ r = rangeRatioRun ∨
    r = rangeRationalRun := by decide

end Has

/-! ## Bounds -/

namespace Bound

/-- The numbers before a low bound. -/
def before : Bound → Set ℚ
  | absent => ∅
  | closed x => Set.Iio x
  | opened x => Set.Iic x

/-- The numbers up to a high bound. -/
def upto : Bound → Set ℚ
  | absent => Set.univ
  | closed x => Set.Iic x
  | opened x => Set.Iio x

variable {x y : ℚ}

theorem mem_before_closed : y ∈ (closed x).before ↔ y < x := Iff.rfl

theorem mem_before_opened : y ∈ (opened x).before ↔ y ≤ x := Iff.rfl

theorem mem_upto_closed : y ∈ (closed x).upto ↔ y ≤ x := Iff.rfl

theorem mem_upto_opened : y ∈ (opened x).upto ↔ y < x := Iff.rfl

theorem isLowerSet_before (b : Bound) : IsLowerSet b.before := by
  cases b with
  | absent => exact isLowerSet_empty
  | closed x => exact isLowerSet_Iio x
  | opened x => exact isLowerSet_Iic x

theorem isLowerSet_upto (b : Bound) : IsLowerSet b.upto := by
  cases b with
  | absent => exact isLowerSet_univ
  | closed x => exact isLowerSet_Iic x
  | opened x => exact isLowerSet_Iio x

/-- A bound of the ranges of a run. -/
structure ValidFor (run : Run) (b : Bound) : Prop where
  integer : run = rangeIntegerRun → b = absent ∨ ∃ n : ℤ, b = closed n
  ratio : run = rangeRatioRun → ∀ n : ℤ, b ≠ closed n

/-- Ranges of the run can be cut at the bound, which leaves out a number of the other run. -/
structure Severs (run : Run) (b : Bound) : Prop where
  single : run = rangeIntegerRun ∨ run = rangeRatioRun
  ne_absent : b ≠ absent
  integer : run = rangeIntegerRun → ∀ n : ℤ, b ≠ opened n
  ratio : run = rangeRatioRun → ∃ n : ℤ, b = opened n

def neg : Bound → Bound
  | absent => absent
  | closed x => closed (-x)
  | opened x => opened (-x)

@[simp] theorem neg_neg_eq (b : Bound) : b.neg.neg = b := by cases b <;> simp [neg]

theorem mem_before_neg {b : Bound} {y : ℚ} : y ∈ b.neg.before ↔ -y ∉ b.upto := by
  cases b <;> simp [neg, before, upto, lt_neg, le_neg]

theorem mem_upto_neg {b : Bound} {y : ℚ} : y ∈ b.neg.upto ↔ -y ∉ b.before := by
  cases b <;> simp [neg, before, upto, lt_neg, le_neg]

theorem before_neg_subset {a b : Bound} : a.neg.before ⊆ b.neg.before ↔ b.upto ⊆ a.upto := by
  refine ⟨fun h y hy => ?_, fun h y hy => mem_before_neg.2 fun hb => mem_before_neg.1 hy (h hb)⟩
  by_contra hna
  have hy' : -y ∈ a.neg.before := mem_before_neg.2 (by rwa [neg_neg])
  have hnb := mem_before_neg.1 (h hy')
  rw [neg_neg] at hnb
  exact hnb hy

theorem ValidFor.neg {run : Run} {b : Bound} (h : b.ValidFor run) : b.neg.ValidFor run where
  integer hrun := by
    rcases h.integer hrun with rfl | ⟨n, rfl⟩
    · exact .inl rfl
    · exact .inr ⟨-n, by simp [Bound.neg]⟩
  ratio hrun n heq := h.ratio hrun (-n) (by rw [← neg_neg_eq b, heq]; simp [Bound.neg])

theorem Severs.neg {run : Run} {b : Bound} (h : b.Severs run) : b.neg.Severs run where
  single := h.single
  ne_absent heq := h.ne_absent (by rw [← neg_neg_eq b, heq]; rfl)
  integer hrun n heq := h.integer hrun (-n) (by rw [← neg_neg_eq b, heq]; simp [Bound.neg])
  ratio hrun := by
    obtain ⟨n, rfl⟩ := h.ratio hrun
    exact ⟨-n, by simp [Bound.neg]⟩

end Bound

section Compare

variable {a b : Bound}

theorem Iio_ne_univ (x : ℚ) : Set.Iio x ≠ Set.univ :=
  fun h => lt_irrefl x (h.symm ▸ mem_univ x : x ∈ Set.Iio x)

theorem Iic_ne_univ (x : ℚ) : Set.Iic x ≠ Set.univ := fun h =>
  not_le_of_gt (lt_add_one x) (h.symm ▸ mem_univ (x + 1) : x + 1 ∈ Set.Iic x)

theorem Iic_ne_empty (x : ℚ) : Set.Iic x ≠ ∅ := fun h => (h ▸ mem_Iic.2 le_rfl : x ∈ (∅ : Set ℚ))

theorem lowLeLowP_iff : lowLeLowP a b = true ↔ a.before ⊆ b.before := by
  cases a with
  | absent => simp [lowLeLowP, Bound.before]
  | closed x =>
    cases b with
    | absent => simp [lowLeLowP, Bound.before]
    | closed y => simp [lowLeLowP, Bound.before]
    | opened y => simp [lowLeLowP, Bound.before, Set.Iio_subset_Iic_iff]
  | opened x => cases b <;> simp [lowLeLowP, Bound.before, Iic_ne_empty]

theorem lowLeLowP_neg : lowLeLowP a.neg b.neg = highGeHighP a b := by
  cases a <;> cases b <;> simp [lowLeLowP, highGeHighP, Bound.neg]

theorem highGeHighP_iff : highGeHighP a b = true ↔ b.upto ⊆ a.upto := by
  rw [← lowLeLowP_neg, lowLeLowP_iff, Bound.before_neg_subset]

theorem highGtHighP_iff : highGtHighP a b = true ↔ ¬ a.upto ⊆ b.upto := by
  cases a with
  | absent => cases b <;> simp [highGtHighP, Bound.upto, Iio_ne_univ, Iic_ne_univ]
  | closed x => cases b <;> simp [highGtHighP, Bound.upto]
  | opened x => cases b <;> simp [highGtHighP, Bound.upto, Set.Iio_subset_Iic_iff]

theorem lowGtHighP_iff : lowGtHighP a b = true ↔ b.upto ⊆ a.before := by
  cases a with
  | absent => cases b <;> simp [lowGtHighP, Bound.upto, Bound.before, Iic_ne_empty]
  | closed x => cases b <;> simp [lowGtHighP, Bound.upto, Bound.before, Iio_ne_univ]
  | opened x => cases b <;> simp [lowGtHighP, Bound.upto, Bound.before,
    Set.Iio_subset_Iic_iff, Iic_ne_univ]

end Compare

/-! ## The other side of a bound -/

section Flip

variable {x low high : Bound} {run : Run}

/-- A low bound of what is left of a run after a high bound. -/
structure Resumes (run : Run) (x low : Bound) : Prop where
  valid : low.ValidFor run
  subset : x.upto ⊆ low.before
  same : ∀ y, run.Has y → y ∈ low.before → y ∈ x.upto
  gap : x.Severs run → ∃ y, ¬ run.Has y ∧ y ∉ x.upto ∧ y ∈ low.before

/-- A high bound of what is left of a run before a low bound. -/
structure Stops (run : Run) (x high : Bound) : Prop where
  valid : high.ValidFor run
  subset : high.upto ⊆ x.before
  same : ∀ y, run.Has y → y ∈ x.before → y ∈ high.upto
  gap : x.Severs run → ∃ y, ¬ run.Has y ∧ y ∉ high.upto ∧ y ∈ x.before

theorem Resumes.stops (h : Resumes run x.neg low) : Stops run x low.neg where
  valid := h.valid.neg
  subset y hy := by
    by_contra hx
    refine Bound.mem_upto_neg.1 hy (h.subset (Bound.mem_upto_neg.2 ?_))
    rwa [neg_neg]
  same y hrun hx := by
    refine Bound.mem_upto_neg.2 fun hlow => ?_
    have hup := h.same (-y) (has_neg.2 hrun) hlow
    rw [Bound.mem_upto_neg, neg_neg] at hup
    exact hup hx
  gap hsevers := by
    obtain ⟨y, hrun, hx, hlow⟩ := h.gap hsevers.neg
    refine ⟨-y, fun hhas => hrun (has_neg.1 hhas), fun hup => ?_, ?_⟩
    · rw [Bound.mem_upto_neg, neg_neg] at hup
      exact hup hlow
    · rw [Bound.mem_upto_neg, not_not] at hx
      exact hx

theorem flipExclusion_neg (positive : Bool) :
    flipExclusion x.neg (!positive) run = (flipExclusion x positive run).map Bound.neg := by
  cases x with
  | absent => rfl
  | closed x =>
    simp only [flipExclusion, Bound.neg, isInt_neg, map_some, floor_neg, ceil_neg]
    by_cases hrun : run = rangeIntegerRun
    · by_cases hx : x.isInt = true <;> cases positive <;> simp [hrun, hx] <;> ring
    · simp [hrun]
  | opened x =>
    simp only [flipExclusion, Bound.neg, isInt_neg, map_some, floor_neg, ceil_neg]
    by_cases hrun : run = rangeIntegerRun
    · cases positive <;> simp [hrun]
    simp only [if_neg hrun]
    by_cases hx : run = rangeRatioRun ∧ x.isInt = true
    · simp only [if_pos hx]
    · simp only [if_neg hx]

theorem resumes_integer_closed {x : ℚ} (hx : ¬ x.isInt = true) :
    Resumes rangeIntegerRun (.closed x) (.closed (⌈x⌉ : ℤ)) where
  valid := ⟨fun _ => .inr ⟨_, rfl⟩, fun h => absurd h (by decide)⟩
  subset y hy := by
    have hlt : x < ⌈x⌉ := lt_of_le_of_ne (le_ceil x) fun heq => hx (isInt_iff.2 ⟨_, heq⟩)
    exact lt_of_le_of_lt hy hlt
  same y hrun hy := by
    obtain ⟨n, rfl⟩ := isInt_iff.1 (has_integer.1 hrun)
    exact (lt_ceil.1 (cast_lt.1 (Bound.mem_before_closed.1 hy))).le
  gap _ := by
    have hlt : x < ⌈x⌉ := lt_of_le_of_ne (le_ceil x) fun heq => hx (isInt_iff.2 ⟨_, heq⟩)
    obtain ⟨y, hxy, hy, hratio⟩ := exists_ratio hlt
    exact ⟨y, fun h => hratio (has_integer.1 h), not_le_of_gt hxy, hy⟩

theorem resumes_integer_opened (x : ℚ) :
    Resumes rangeIntegerRun (.opened x) (.closed (⌈x⌉ : ℤ)) where
  valid := ⟨fun _ => .inr ⟨_, rfl⟩, fun h => absurd h (by decide)⟩
  subset y hy := lt_of_lt_of_le (Bound.mem_upto_opened.1 hy) (le_ceil x)
  same y hrun hy := by
    obtain ⟨n, rfl⟩ := isInt_iff.1 (has_integer.1 hrun)
    exact lt_ceil.1 (cast_lt.1 (Bound.mem_before_closed.1 hy))
  gap hsevers := by
    have hx : ¬ x.isInt = true := fun h => by
      obtain ⟨n, rfl⟩ := isInt_iff.1 h
      exact hsevers.integer rfl n rfl
    have hlt : x < ⌈x⌉ := lt_of_le_of_ne (le_ceil x) fun heq => hx (isInt_iff.2 ⟨_, heq⟩)
    exact ⟨x, fun h => hx (has_integer.1 h), lt_irrefl x, hlt⟩

theorem resumes_integer_succ (n : ℤ) : Resumes rangeIntegerRun (.closed n) (.closed (n + 1)) where
  valid := ⟨fun _ => .inr ⟨n + 1, by push_cast; rfl⟩, fun h => absurd h (by decide)⟩
  subset y hy := lt_of_le_of_lt (Bound.mem_upto_closed.1 hy) (lt_add_one (n : ℚ))
  same y hrun hy := by
    obtain ⟨m, rfl⟩ := isInt_iff.1 (has_integer.1 hrun)
    have hlt : m < n + 1 := by exact_mod_cast Bound.mem_before_closed.1 hy
    exact Bound.mem_upto_closed.2 (cast_le.2 (by omega))
  gap _ := by
    obtain ⟨y, hny, hy, hratio⟩ := exists_ratio (lt_add_one (n : ℚ))
    exact ⟨y, fun h => hratio (has_integer.1 h), not_le_of_gt hny, hy⟩

theorem resumes_opened {x : ℚ} (hrun : run ≠ rangeIntegerRun) :
    Resumes run (.closed x) (.opened x) where
  valid := ⟨fun h => absurd h hrun, (fun _ _ h => nomatch h)⟩
  subset _ hy := hy
  same _ _ hy := hy
  gap hsevers := by
    obtain ⟨n, h⟩ := hsevers.ratio (hsevers.single.resolve_left hrun)
    exact nomatch h

theorem resumes_ratio_opened (n : ℤ) : Resumes rangeRatioRun (.opened n) (.opened n) where
  valid := ⟨fun h => absurd h (by decide), (fun _ _ h => nomatch h)⟩
  subset _ hy := (Bound.mem_upto_opened.1 hy).le
  same y hrun hy := lt_of_le_of_ne hy fun heq => has_ratio.1 hrun (isInt_iff.2 ⟨n, heq⟩)
  gap _ := ⟨n, fun h => has_ratio.1 h (isInt_intCast n),
    fun h => lt_irrefl _ (Bound.mem_upto_opened.1 h), le_refl (n : ℚ)⟩

theorem resumes_closed {x : ℚ} (hrun : run ≠ rangeIntegerRun)
    (hx : ¬ (run = rangeRatioRun ∧ x.isInt = true)) : Resumes run (.opened x) (.closed x) where
  valid := by
    refine ⟨fun h => absurd h hrun, fun h n heq => hx ⟨h, ?_⟩⟩
    injection heq with heq
    exact isInt_iff.2 ⟨n, heq⟩
  subset _ hy := hy
  same _ _ hy := hy
  gap hsevers := by
    have hratio := hsevers.single.resolve_left hrun
    obtain ⟨n, h⟩ := hsevers.ratio hratio
    injection h with h
    exact absurd ⟨hratio, isInt_iff.2 ⟨n, h⟩⟩ hx

theorem flipExclusion_low (hx : x ≠ .absent) : ∃ low, flipExclusion x true run = some low ∧
    Resumes run x low := by
  cases x with
  | absent => exact absurd rfl hx
  | closed x =>
    refine ⟨_, rfl, ?_⟩
    split
    · subst run
      split
      · obtain ⟨n, rfl⟩ := isInt_iff.1 ‹_›
        exact resumes_integer_succ n
      · exact resumes_integer_closed ‹_›
    · exact resumes_opened ‹_›
  | opened x =>
    refine ⟨_, rfl, ?_⟩
    split
    · subst run
      exact resumes_integer_opened x
    split
    · rename_i h
      obtain ⟨rfl, hint⟩ := h
      obtain ⟨n, rfl⟩ := isInt_iff.1 hint
      exact resumes_ratio_opened n
    · exact resumes_closed ‹_› ‹_›

theorem flipExclusion_high (hx : x ≠ .absent) : ∃ high, flipExclusion x false run = some high ∧
    Stops run x high := by
  have hne : x.neg ≠ .absent := by cases x <;> simp_all [Bound.neg]
  obtain ⟨low, hflip, hresumes⟩ := @flipExclusion_low x.neg run hne
  have hneg := @flipExclusion_neg x run false
  rw [Bool.not_false, hflip] at hneg
  obtain ⟨high, hhigh, rfl⟩ := map_eq_some_iff.1 hneg.symm
  refine ⟨high, hhigh, ?_⟩
  rw [← Bound.neg_neg_eq high]
  exact hresumes.stops

end Flip

/-! ## The bounds of a rational range -/

section Rational

variable {run : Run} {low rationalLow res : Bound}

theorem highGeHighP_neg {a b : Bound} : highGeHighP a.neg b.neg = lowLeLowP a b := by
  rw [← lowLeLowP_neg, Bound.neg_neg_eq, Bound.neg_neg_eq]

/-- A low bound that a range of the run gives up to a rational range, whose own low bound is the
second one. -/
structure Lowers (run : Run) (low rationalLow res : Bound) : Prop where
  subset : res.before ⊆ rationalLow.before
  same : ∀ y, ¬ run.Has y → y ∈ rationalLow.before → y ∈ res.before
  least : res = rationalLow ∧ rationalLow.before ⊆ low.before ∨ low.before ⊆ res.before
  severs : ¬ res.before ⊆ low.before → res.Severs run

/-- A high bound that a range of the run gives up to a rational range, whose own high bound is the
second one. -/
structure Raises (run : Run) (high rationalHigh res : Bound) : Prop where
  subset : rationalHigh.upto ⊆ res.upto
  same : ∀ y, ¬ run.Has y → y ∈ res.upto → y ∈ rationalHigh.upto
  most : res = rationalHigh ∧ high.upto ⊆ rationalHigh.upto ∨ res.upto ⊆ high.upto
  severs : ¬ high.upto ⊆ res.upto → res.Severs run

theorem Bound.upto_neg_subset {a b : Bound} : a.neg.upto ⊆ b.neg.upto ↔ b.before ⊆ a.before := by
  rw [← Bound.before_neg_subset, Bound.neg_neg_eq, Bound.neg_neg_eq]

theorem Lowers.raises (h : Lowers run low rationalLow res) :
    Raises run low.neg rationalLow.neg res.neg where
  subset := Bound.upto_neg_subset.2 h.subset
  same y hrun hy := by
    rw [Bound.mem_upto_neg] at hy ⊢
    exact fun hlow => hy (h.same _ (fun hhas => hrun (has_neg.1 hhas)) hlow)
  most := by
    rcases h.least with ⟨rfl, hle⟩ | hle
    · exact .inl ⟨rfl, Bound.upto_neg_subset.2 hle⟩
    · exact .inr (Bound.upto_neg_subset.2 hle)
  severs hne := (h.severs fun hle => hne (Bound.upto_neg_subset.2 hle)).neg

theorem Lowers.refl (h : rationalLow.before ⊆ low.before) :
    Lowers run low rationalLow rationalLow where
  subset := subset_rfl
  same _ _ hy := hy
  least := .inl ⟨rfl, h⟩
  severs hne := absurd h hne

/-- An open integer bound of a rational range can be closed before integers. -/
theorem Lowers.integer {x : ℚ} (hx : x.isInt = true) (hvalid : low.ValidFor rangeIntegerRun)
    (hle : low.before ⊆ (Bound.opened x).before) :
    Lowers rangeIntegerRun low (.opened x) (.closed x) where
  subset _ hy := le_of_lt (Bound.mem_before_closed.1 hy)
  same y hrun hy := lt_of_le_of_ne (Bound.mem_before_opened.1 hy) fun heq =>
    hrun (has_integer.2 (heq ▸ hx))
  least := by
    right
    rcases hvalid.integer rfl with rfl | ⟨n, rfl⟩
    · exact empty_subset _
    · exact fun y hy => lt_of_lt_of_le hy (Set.Iio_subset_Iic_iff.1 hle)
  severs _ := ⟨.inl rfl, (fun h => nomatch h), (fun _ _ h => nomatch h),
    fun h => absurd h (by decide)⟩

theorem Lowers.ratio (newLow : ℤ) (hsub : (Bound.opened newLow).before ⊆ rationalLow.before)
    (hsame : ∀ n : ℤ, (n : ℚ) ∈ rationalLow.before → n ≤ newLow)
    (hle : low.before ⊆ rationalLow.before) :
    Lowers rangeRatioRun low rationalLow (if lowLeLowP (.opened newLow) low then low
      else .opened newLow) := by
  have hint (y : ℚ) (hrun : ¬ Run.Has rangeRatioRun y) (hy : y ∈ rationalLow.before) :
      y ∈ (Bound.opened newLow).before := by
    rw [has_ratio, not_not] at hrun
    obtain ⟨n, rfl⟩ := isInt_iff.1 hrun
    exact Bound.mem_before_opened.2 (cast_le.2 (hsame n hy))
  split
  · rename_i hcmp
    refine ⟨hle, fun y hrun hy => lowLeLowP_iff.1 hcmp (hint y hrun hy), .inr subset_rfl,
      fun hne => absurd subset_rfl hne⟩
  rename_i hcmp
  rw [lowLeLowP_iff] at hcmp
  have htotal :=
    ((Bound.isLowerSet_before low).total (Bound.isLowerSet_before (.opened newLow))).resolve_right
      hcmp
  exact ⟨hsub, hint, .inr htotal,
    fun _ => ⟨.inr rfl, (fun h => nomatch h), fun h => absurd h (by decide), fun _ => ⟨_, rfl⟩⟩⟩

theorem minRationalLow_spec (hrun : run = rangeIntegerRun ∨ run = rangeRatioRun)
    (hvalid : low.ValidFor run) :
    ∃ res, minRationalLow low run rationalLow = some res ∧ Lowers run low rationalLow res := by
  unfold minRationalLow
  by_cases hcmp : lowLeLowP rationalLow low = true
  · rw [if_pos hcmp]
    exact ⟨_, rfl, Lowers.refl (lowLeLowP_iff.1 hcmp)⟩
  rw [if_neg hcmp]
  rw [lowLeLowP_iff] at hcmp
  have hle := ((Bound.isLowerSet_before low).total
    (Bound.isLowerSet_before rationalLow)).resolve_right hcmp
  rcases hrun with rfl | rfl
  · rw [if_pos rfl]
    refine ⟨_, rfl, ?_⟩
    have hkeep (hsevers : rationalLow.Severs rangeIntegerRun) :
        Lowers rangeIntegerRun low rationalLow rationalLow :=
      ⟨subset_rfl, fun _ _ hy => hy, .inr hle, fun _ => hsevers⟩
    cases rationalLow with
    | absent => exact absurd (empty_subset _) hcmp
    | closed x =>
      exact hkeep ⟨.inl rfl, (fun h => nomatch h), (fun _ _ h => nomatch h),
        fun h => absurd h (by decide)⟩
    | opened x =>
      dsimp only
      split
      · exact Lowers.integer ‹_› hvalid hle
      rename_i hx
      refine hkeep ⟨.inl rfl, (fun h => nomatch h), fun _ n heq => hx ?_,
        fun h => absurd h (by decide)⟩
      injection heq with heq
      exact isInt_iff.2 ⟨n, heq⟩
  · rw [if_neg (by decide)]
    cases rationalLow with
    | absent => exact absurd (empty_subset _) hcmp
    | closed x =>
      refine ⟨_, rfl, ?_⟩
      by_cases hx : x.isInt = true
      · obtain ⟨n, rfl⟩ := isInt_iff.1 hx
        have hnew : (n : ℚ) - 1 = ((n - 1 : ℤ) : ℚ) := by push_cast; rfl
        simp only [Bound.integerp, hx, if_true, hnew]
        refine Lowers.ratio (n - 1) (fun y hy => ?_) (fun m hm => ?_) hle
        · refine lt_of_le_of_lt (Bound.mem_before_opened.1 hy) (cast_lt.2 (by omega))
        · have hlt : m < n := cast_lt.1 (Bound.mem_before_closed.1 hm)
          omega
      · simp only [Bound.integerp, hx, Bool.false_eq_true, if_false]
        have hfloor : (⌊x⌋ : ℚ) < x :=
          lt_of_le_of_ne (floor_le x) fun heq => hx (isInt_iff.2 ⟨_, heq.symm⟩)
        exact Lowers.ratio ⌊x⌋ (fun y hy => lt_of_le_of_lt hy hfloor) (fun m hm =>
          le_floor.2 (le_of_lt hm)) hle
    | opened x =>
      refine ⟨_, rfl, ?_⟩
      simp only [Bound.integerp, Bool.false_eq_true, if_false]
      exact Lowers.ratio ⌊x⌋ (fun y hy => le_trans hy (floor_le x)) (fun m hm => le_floor.2 hm) hle

theorem ite_opened_neg {v w : ℚ} (h : w = -v) :
    (if highGeHighP (.opened w) low.neg then low.neg else .opened w) =
      (if lowLeLowP (.opened v) low then low else .opened v).neg := by
  subst h
  have hneg : Bound.opened (-v) = (Bound.opened v).neg := rfl
  rw [hneg, highGeHighP_neg]
  split <;> rfl

theorem maxRationalHigh_neg :
    maxRationalHigh low.neg run rationalLow.neg =
      (minRationalLow low run rationalLow).map Bound.neg := by
  unfold maxRationalHigh minRationalLow
  rw [highGeHighP_neg]
  by_cases hcmp : lowLeLowP rationalLow low = true
  · simp only [if_pos hcmp, map_some]
  simp only [if_neg hcmp]
  by_cases hrun : run = rangeIntegerRun
  · simp only [if_pos hrun, map_some]
    cases rationalLow with
    | absent => rfl
    | closed x => rfl
    | opened x =>
      simp only [Bound.neg, isInt_neg]
      split <;> rfl
  · simp only [if_neg hrun]
    cases rationalLow with
    | absent => rfl
    | closed x =>
      refine congrArg some (ite_opened_neg ?_)
      show (if (-x).isInt = true then -x + 1 else ((⌈-x⌉ : ℤ) : ℚ)) =
        -(if x.isInt = true then x - 1 else ((⌊x⌋ : ℤ) : ℚ))
      rw [isInt_neg]
      split
      · ring
      · rw [ceil_neg, cast_neg]
    | opened x =>
      refine congrArg some (ite_opened_neg ?_)
      show ((⌈-x⌉ : ℤ) : ℚ) = -((⌊x⌋ : ℤ) : ℚ)
      rw [ceil_neg, cast_neg]

theorem maxRationalHigh_spec {high rationalHigh : Bound}
    (hrun : run = rangeIntegerRun ∨ run = rangeRatioRun)
    (hvalid : high.ValidFor run) : ∃ res, maxRationalHigh high run rationalHigh = some res ∧
      Raises run high rationalHigh res := by
  obtain ⟨res, hres, hlowers⟩ := @minRationalLow_spec run high.neg rationalHigh.neg hrun hvalid.neg
  have hneg := @maxRationalHigh_neg run high.neg rationalHigh.neg
  rw [Bound.neg_neg_eq, Bound.neg_neg_eq, hres] at hneg
  refine ⟨res.neg, hneg, ?_⟩
  have hraises := hlowers.raises
  rwa [Bound.neg_neg_eq, Bound.neg_neg_eq] at hraises

end Rational

/-! ## The bounds of an overlap -/

section Overlap

variable {k k' : Run} {max min res : Bound}

/-- The low bound of an overlap of a range of the first run, which begins later, and a range of the
second run. -/
structure Later (k k' : Run) (max min res : Bound) : Prop where
  least : min.before ⊆ res.before
  most : res.before ⊆ max.before
  same : ∀ y, k.Has y → y ∈ max.before → y ∈ res.before
  reach : ∀ y, k'.Has y → y ∉ min.before → y ∈ res.before → ∃ z, k.Has z ∧ y < z ∧ z ∈ max.before
  severs : ¬ res.before ⊆ min.before → res.Severs k'

/-- The high bound of an overlap of a range of the first run, which ends earlier, and a range of the
second run. -/
structure Earlier (k k' : Run) (max min res : Bound) : Prop where
  least : min.upto ⊆ res.upto
  most : res.upto ⊆ max.upto
  same : ∀ y, k.Has y → y ∈ res.upto → y ∈ min.upto
  reach : ∀ y, k'.Has y → y ∈ max.upto → y ∉ res.upto → ∃ z, k.Has z ∧ z < y ∧ z ∉ min.upto
  severs : ¬ max.upto ⊆ res.upto → res.Severs k'

theorem Later.earlier (h : Later k k' max min res) : Earlier k k' min.neg max.neg res.neg where
  least := Bound.upto_neg_subset.2 h.most
  most := Bound.upto_neg_subset.2 h.least
  same y hrun hy := by
    rw [Bound.mem_upto_neg] at hy ⊢
    exact fun hmax => hy (h.same _ (has_neg.2 hrun) hmax)
  reach y hrun hmin hres := by
    rw [Bound.mem_upto_neg] at hmin hres
    obtain ⟨z, hz, hyz, hmax⟩ := h.reach _ (has_neg.2 hrun) hmin (not_not.1 hres)
    refine ⟨-z, has_neg.2 hz, neg_lt.1 hyz, ?_⟩
    rw [Bound.mem_upto_neg, neg_neg, not_not]
    exact hmax
  severs hne := (h.severs fun hle => hne (Bound.upto_neg_subset.2 hle)).neg

theorem earlierHigh_neg : earlierHigh min.neg max.neg = (laterLow max min).neg := by
  unfold earlierHigh laterLow
  cases max with
  | absent => rfl
  | opened x =>
    simp only [Bound.neg, isInt_neg]
    split <;> rfl
  | closed x =>
    simp only [Bound.neg, isInt_neg]
    split
    · have hsub : -x + 1 = -(x - 1) := by ring
      have hiff (y : ℚ) : (⌈-y⌉ : ℚ) - 1 = -x ↔ 1 + (⌊y⌋ : ℚ) = x := by
        rw [ceil_neg, cast_neg]
        constructor <;> intro h <;> linarith
      cases min with
      | absent => simp only [Bound.number, hsub]
      | closed y =>
        simp only [Bound.number, hsub, hiff]
        split <;> rfl
      | opened y =>
        simp only [Bound.number, hsub, hiff]
        split <;> rfl
    · rfl

theorem severs_integer_closed (x : ℚ) : (Bound.closed x).Severs rangeIntegerRun :=
  ⟨.inl rfl, (fun h => nomatch h), (fun _ _ h => nomatch h), fun h => absurd h (by decide)⟩

theorem severs_integer_opened {x : ℚ} (hx : ¬ x.isInt = true) :
    (Bound.opened x).Severs rangeIntegerRun := by
  refine ⟨.inl rfl, (fun h => nomatch h), fun _ n heq => hx ?_, fun h => absurd h (by decide)⟩
  injection heq with heq
  exact isInt_iff.2 ⟨n, heq⟩

theorem severs_ratio_opened (n : ℤ) : (Bound.opened n).Severs rangeRatioRun :=
  ⟨.inr rfl, (fun h => nomatch h), fun h => absurd h (by decide), fun _ => ⟨n, rfl⟩⟩

theorem later_ratio (hmax : max.ValidFor rangeRatioRun) (hmin : min.ValidFor rangeIntegerRun)
    (hle : min.before ⊆ max.before) :
    Later rangeRatioRun rangeIntegerRun max min (laterLow max min) := by
  unfold laterLow
  cases max with
  | absent =>
    exact ⟨hle, subset_rfl, fun _ _ hy => hy, fun y _ _ hy => absurd hy (notMem_empty y),
      fun hne => absurd (empty_subset _) hne⟩
  | opened x =>
    dsimp only
    split
    · rename_i hx
      refine ⟨?_, fun y hy => le_of_lt (Bound.mem_before_closed.1 hy),
        fun y hrun hy => lt_of_le_of_ne (Bound.mem_before_opened.1 hy) fun heq =>
        has_ratio.1 hrun (heq ▸ hx), fun y _ _ hy => ?_,
        fun _ => severs_integer_closed x⟩
      · rcases hmin.integer rfl with rfl | ⟨n, rfl⟩
        · exact empty_subset _
        · exact fun y hy => lt_of_lt_of_le hy (Set.Iio_subset_Iic_iff.1 hle)
      · obtain ⟨z, hyz, hzx, hz⟩ := exists_ratio (Bound.mem_before_closed.1 hy)
        exact ⟨z, has_ratio.2 hz, hyz, Bound.mem_before_opened.2 hzx.le⟩
    · rename_i hx
      refine ⟨hle, subset_rfl, fun _ _ hy => hy, fun y hrun _ hy => ?_,
        fun _ => severs_integer_opened hx⟩
      have hne : y ≠ x := fun heq => hx (heq ▸ has_integer.1 hrun)
      exact ⟨x, has_ratio.2 hx, lt_of_le_of_ne (Bound.mem_before_opened.1 hy) hne,
        Bound.mem_before_opened.2 le_rfl⟩
  | closed x =>
    have hx : ¬ x.isInt = true := fun h => by
      obtain ⟨n, rfl⟩ := isInt_iff.1 h
      exact hmax.ratio rfl n rfl
    simp only [hx, Bool.false_eq_true, if_false]
    refine ⟨hle, subset_rfl, fun _ _ hy => hy, fun y hrun _ hy => ?_,
      fun _ => severs_integer_closed x⟩
    obtain ⟨z, hyz, hzx, hz⟩ := exists_ratio (Bound.mem_before_closed.1 hy)
    exact ⟨z, has_ratio.2 hz, hyz, Bound.mem_before_closed.2 hzx⟩

theorem later_pred (n : ℤ) (hle : min.before ⊆ (Bound.opened ((n : ℚ) - 1)).before) :
    Later rangeIntegerRun rangeRatioRun (.closed n) min (.opened ((n : ℚ) - 1)) where
  least := hle
  most y hy := lt_of_le_of_lt (Bound.mem_before_opened.1 hy) (sub_one_lt (n : ℚ))
  same y hrun hy := by
    obtain ⟨m, rfl⟩ := isInt_iff.1 (has_integer.1 hrun)
    have hlt : m < n := cast_lt.1 (Bound.mem_before_closed.1 hy)
    refine Bound.mem_before_opened.2 ?_
    exact_mod_cast (by omega : m ≤ n - 1)
  reach y hrun _ hy := by
    have hne : y ≠ (n - 1 : ℤ) := fun heq => has_ratio.1 hrun (isInt_iff.2 ⟨_, heq⟩)
    push_cast at hne
    refine ⟨(n - 1 : ℤ), has_integer.2 (isInt_intCast _), ?_, ?_⟩
    · push_cast
      exact lt_of_le_of_ne (Bound.mem_before_opened.1 hy) hne
    · exact Bound.mem_before_closed.2 (cast_lt.2 (by omega))
  severs _ := by
    have hsevers := severs_ratio_opened (n - 1)
    push_cast at hsevers
    exact hsevers

theorem later_integer (hmax : max.ValidFor rangeIntegerRun) (hmin : min.ValidFor rangeRatioRun)
    (hle : min.before ⊆ max.before) :
    Later rangeIntegerRun rangeRatioRun max min (laterLow max min) := by
  rcases hmax.integer rfl with rfl | ⟨n, rfl⟩
  · exact ⟨hle, subset_rfl, fun _ _ hy => hy, fun y _ _ hy => absurd hy (notMem_empty y),
      fun hne => absurd (empty_subset _) hne⟩
  unfold laterLow
  simp only [isInt_intCast, if_true]
  -- the ratios after min are before the integer or leave an integer out
  have hkeep {y : ℚ} (hfloor : 1 + (⌊y⌋ : ℚ) = n) (hbefore : min.before = Set.Iio y ∧
    ¬ y.isInt = true ∨ min.before = Set.Iic y) :
      Later rangeIntegerRun rangeRatioRun (.closed n) min min := by
    refine ⟨subset_rfl, hle, fun z hrun hz => ?_, fun z _ hz hz' => absurd hz' hz,
      fun hne => absurd subset_rfl hne⟩
    obtain ⟨m, rfl⟩ := isInt_iff.1 (has_integer.1 hrun)
    have hlt : m < n := cast_lt.1 (Bound.mem_before_closed.1 hz)
    have hfloor' : 1 + ⌊y⌋ = n := by exact_mod_cast hfloor
    have hm : (m : ℚ) ≤ y := le_floor.1 (by omega)
    rcases hbefore with ⟨hb, hy⟩ | hb
    · rw [hb]
      exact lt_of_le_of_ne hm fun heq => hy (isInt_iff.2 ⟨m, heq.symm⟩)
    · rw [hb]
      exact hm
  have hpred {y : ℚ} (hyn : y < n) (hfloor : ¬ 1 + (⌊y⌋ : ℚ) = n) : y < n - 1 := by
    have hlt : ⌊y⌋ < n := floor_lt.2 hyn
    have hne : ¬ 1 + ⌊y⌋ = n := fun h => hfloor (by exact_mod_cast h)
    have hlt' : ⌊y⌋ < n - 1 := by omega
    exact_mod_cast floor_lt.1 hlt'
  cases min with
  | absent => exact later_pred n (empty_subset _)
  | closed y =>
    have hy : ¬ y.isInt = true := fun h => by
      obtain ⟨m, rfl⟩ := isInt_iff.1 h
      exact hmin.ratio rfl m rfl
    simp only [Bound.number]
    split
    · exact hkeep ‹_› (.inl ⟨rfl, hy⟩)
    rename_i hfloor
    refine later_pred n fun z hz => ?_
    have hyn : y < n := lt_of_le_of_ne (Set.Iio_subset_Iio_iff.1 hle) fun heq =>
      hy (isInt_iff.2 ⟨n, heq⟩)
    exact le_of_lt ((Bound.mem_before_closed.1 hz).trans (hpred hyn hfloor))
  | opened y =>
    simp only [Bound.number]
    split
    · exact hkeep ‹_› (.inr rfl)
    rename_i hfloor
    refine later_pred n fun z hz => ?_
    have hyn : y < n := hle (mem_Iic.2 le_rfl)
    exact le_of_lt (lt_of_le_of_lt (Bound.mem_before_opened.1 hz) (hpred hyn hfloor))

/-- The runs are the integers and the ratios. -/
def Complementary (k k' : Run) : Prop :=
  k = rangeIntegerRun ∧ k' = rangeRatioRun ∨ k = rangeRatioRun ∧ k' = rangeIntegerRun

theorem laterLow_spec (hk : Complementary k k') (hmax : max.ValidFor k) (hmin : min.ValidFor k')
    (hle : min.before ⊆ max.before) : Later k k' max min (laterLow max min) := by
  rcases hk with ⟨rfl, rfl⟩ | ⟨rfl, rfl⟩
  · exact later_integer hmax hmin hle
  · exact later_ratio hmax hmin hle

theorem earlierHigh_spec (hk : Complementary k k') (hmax : max.ValidFor k') (hmin : min.ValidFor k)
    (hle : min.upto ⊆ max.upto) : Earlier k k' max min (earlierHigh max min) := by
  have hlater := laterLow_spec hk hmin.neg hmax.neg (Bound.before_neg_subset.2 hle)
  have hneg := @earlierHigh_neg min.neg max.neg
  rw [Bound.neg_neg_eq, Bound.neg_neg_eq] at hneg
  have hearlier := hlater.earlier
  rwa [Bound.neg_neg_eq, Bound.neg_neg_eq, ← hneg] at hearlier

end Overlap

end Sbcl.RationalRange
