import Sbcl.Types.RangeAlgebra

/-!
# The intersection and the difference of rational ranges

* `intersectLoop_spec` : the ranges that end first are left behind;
* `differenceTriple_spec` : what is left of a range of the first vector;
* `intersectRational_spec`, `differenceRational_spec` : the operations return the sets they are
  named after.
-/

namespace Sbcl.RationalRange

open List
open Set (empty_union inter_comm union_assoc union_empty)

variable {triple triple1 triple2 : Triple} {ranges ranges1 ranges2 : List Triple} {acc : Result}
    {s : Set ℚ} {y : ℚ}
variable {high1 high2 low : Bound}

theorem Sorted.before_subset (h : Sorted (triple :: ranges)) :
    triple.low.before ⊆ triple.high.upto :=
  subset_of_not_subset triple.low.isLowerSet_before triple.high.isLowerSet_upto
    (sorted_cons.1 h).2.1

theorem Sorted.low_subset (h : Sorted (triple :: ranges)) : ∀ next ∈ ranges,
    triple.low.before ⊆ next.low.before :=
  fun next hnext => h.before_subset.trans ((sorted_cons.1 h).2.2.1 next hnext)

theorem not_mem_of_before (h : ∀ next ∈ ranges, y ∈ next.low.before) : y ∉ denotes ranges :=
  fun ⟨next, hnext, hy⟩ => hy.2.1 (h next hnext)

/-! ## Intersection -/

theorem intersect_left (hafter : ∀ next ∈ ranges2, triple1.high.upto ⊆ next.low.before) :
    denotes (triple1 :: ranges1) ∩ denotes (triple2 :: ranges2) =
      triple1.denotes ∩ triple2.denotes ∪ denotes ranges1 ∩ denotes (triple2 :: ranges2) := by
  rw [denotes_cons, Set.union_inter_distrib_right, denotes_cons, Set.inter_union_distrib_left]
  have hempty : triple1.denotes ∩ denotes ranges2 = ∅ :=
    Set.eq_empty_of_forall_notMem fun y hy =>
      not_mem_of_before (fun next hnext => hafter next hnext hy.1.2.2) hy.2
  rw [hempty, union_empty]

theorem intersect_right (hafter : ∀ next ∈ ranges1, triple2.high.upto ⊆ next.low.before) :
    denotes (triple1 :: ranges1) ∩ denotes (triple2 :: ranges2) =
      triple1.denotes ∩ triple2.denotes ∪ denotes (triple1 :: ranges1) ∩ denotes ranges2 := by
  rw [inter_comm, intersect_left hafter, inter_comm triple2.denotes, inter_comm (denotes ranges2)]

theorem inter_eq_empty_of_run (h : ¬ logtest triple1.run triple2.run = true) :
    triple1.denotes ∩ triple2.denotes = ∅ := by
  refine Set.eq_empty_of_forall_notMem fun y hy => ?_
  have hand : (triple1.run &&& triple2.run).Has y := has_and.2 ⟨hy.1.1, hy.2.1⟩
  rw [logtest, decide_eq_true_iff, not_not] at h
  rw [h] at hand
  exact not_has_zero hand

theorem inter_eq_empty_of_low (h : triple1.high.upto ⊆ triple2.low.before) :
    triple1.denotes ∩ triple2.denotes = ∅ :=
  Set.eq_empty_of_forall_notMem fun _ hy => hy.2.2.1 (h hy.1.2.2)

theorem later_before {low1 low2 : Bound} :
    (if lowLeLowP low1 low2 then low2 else low1).before = low1.before ∪ low2.before := by
  split
  · rename_i h
    exact (Set.union_eq_right.2 (lowLeLowP_iff.1 h)).symm
  · rename_i h
    exact (Set.union_eq_left.2 (le_of_not_lowLeLowP h)).symm

theorem le_of_not_highGtHighP (h : ¬ highGtHighP high1 high2 = true) : high1.upto ⊆ high2.upto := by
  rw [highGtHighP_iff, not_not] at h
  exact h

theorem le_of_highGtHighP (h : highGtHighP high1 high2 = true) : high2.upto ⊆ high1.upto :=
  subset_of_not_subset high2.isLowerSet_upto high1.isLowerSet_upto (highGtHighP_iff.1 h)

theorem earlier_upto :
    (if highGeHighP high1 high2 then high2 else high1).upto = high1.upto ∩ high2.upto := by
  split
  · rename_i h
    exact (Set.inter_eq_right.2 (highGeHighP_iff.1 h)).symm
  · rename_i h
    rw [highGeHighP_iff] at h
    exact (Set.inter_eq_left.2
      (subset_of_not_subset high1.isLowerSet_upto high2.isLowerSet_upto h)).symm

theorem common_valid (h : logtest triple1.run triple2.run = true) :
    Valid (common triple1 triple2) where
  low := (coerceRationalBound_low _).valid
  high := (coerceRationalBound_high _).valid
  run := by
    rw [logtest, decide_eq_true_iff] at h
    exact h

theorem common_before : triple1.low.before ∪ triple2.low.before ⊆
    (common triple1 triple2).low.before := by
  rw [← later_before]
  exact (coerceRationalBound_low _).subset

theorem common_denotes : (common triple1 triple2).denotes = triple1.denotes ∩ triple2.denotes := by
  ext y
  have hlow :=
    @coerceRationalBound_low (triple1.run &&& triple2.run)
      (if lowLeLowP triple1.low triple2.low then triple2.low else triple1.low)
  have hhigh := @coerceRationalBound_high (triple1.run &&& triple2.run)
    (if highGeHighP triple1.high triple2.high then triple2.high else triple1.high)
  constructor
  · rintro ⟨hy, hnlow, hup⟩
    obtain ⟨hy1, hy2⟩ := has_and.1 hy
    have hnlow' := fun h => hnlow (hlow.subset h)
    have hup' := hhigh.subset hup
    rw [later_before] at hnlow'
    rw [earlier_upto] at hup'
    exact ⟨⟨hy1, fun h => hnlow' (.inl h), hup'.1⟩, hy2, fun h => hnlow' (.inr h), hup'.2⟩
  · rintro ⟨⟨hy1, hnlow1, hup1⟩, hy2, hnlow2, hup2⟩
    have hy := has_and.2 ⟨hy1, hy2⟩
    refine ⟨hy, fun h => ?_, hhigh.same y hy ?_⟩
    · have hbefore := hlow.same y hy h
      rw [later_before] at hbefore
      exact hbefore.elim hnlow1 hnlow2
    · rw [earlier_upto]
      exact ⟨hup1, hup2⟩

theorem after_tail (h : ∀ next ∈ triple :: ranges, y ∈ next.low.before) : ∀ next ∈ ranges,
    y ∈ next.low.before :=
  fun next hnext => h next (mem_cons_of_mem _ hnext)

theorem store_common (hrun : ¬ ¬ logtest triple1.run triple2.run = true) (hacc : Holds acc s)
    (hafter : ∀ y ∈ s, (∀ next ∈ triple1 :: ranges1, y ∈ next.low.before) ∨
      ∀ next ∈ triple2 :: ranges2, y ∈ next.low.before) :
    ∃ acc', store (common triple1 triple2) acc = some acc' ∧
      Holds acc' (s ∪ triple1.denotes ∩ triple2.denotes) := by
  rw [← common_denotes]
  refine store_after hacc (common_valid (not_not.1 hrun)) fun y hy => common_before ?_
  exact (hafter y hy).imp (fun h => h _ mem_cons_self) fun h => h _ mem_cons_self

theorem intersectLoop_spec (h1 : Sorted ranges1) (h2 : Sorted ranges2) (hacc : Holds acc s)
    (hafter : ∀ y ∈ s, (∀ next ∈ ranges1, y ∈ next.low.before) ∨ ∀ next ∈ ranges2,
      y ∈ next.low.before) :
    ∃ acc', intersectLoop ranges1 ranges2 acc = some acc' ∧
      Holds acc' (s ∪ denotes ranges1 ∩ denotes ranges2) := by
  induction ranges1, ranges2, acc using intersectLoop.induct generalizing s with
  | case1 ranges2 acc =>
    rw [intersectLoop, denotes_nil, Set.empty_inter, union_empty]
    exact ⟨acc, rfl, hacc⟩
  | case2 triple1 ranges1 acc =>
    rw [intersectLoop, denotes_nil, Set.inter_empty, union_empty]
    exact ⟨acc, rfl, hacc⟩
  | case3 triple1 ranges1 triple2 ranges2 acc hrun hgt ih =>
    have hskip (next : Triple) (hnext : next ∈ ranges2) :=
      (le_of_highGtHighP hgt).trans ((sorted_cons.1 h2).2.2.1 next hnext)
    rw [intersectLoop, if_pos hrun, if_pos hgt, intersect_left hskip,
      inter_eq_empty_of_run hrun, empty_union]
    exact ih (sorted_cons.1 h1).2.2.2 h2 hacc fun y hy => (hafter y hy).imp_left after_tail
  | case4 triple1 ranges1 triple2 ranges2 acc hrun hgt ih =>
    have hskip (next : Triple) (hnext : next ∈ ranges1) :=
      (le_of_not_highGtHighP hgt).trans ((sorted_cons.1 h1).2.2.1 next hnext)
    rw [intersectLoop, if_pos hrun, if_neg hgt, intersect_right hskip,
      inter_eq_empty_of_run hrun, empty_union]
    exact ih h1 (sorted_cons.1 h2).2.2.2 hacc fun y hy => (hafter y hy).imp_right after_tail
  | case5 triple1 ranges1 triple2 ranges2 acc hrun hlow ih =>
    have hle := lowGtHighP_iff.1 hlow
    have hskip (next : Triple) (hnext : next ∈ ranges2) := hle.trans (h2.low_subset next hnext)
    rw [intersectLoop, if_neg hrun, if_pos hlow, intersect_left hskip,
      inter_eq_empty_of_low hle, empty_union]
    exact ih (sorted_cons.1 h1).2.2.2 h2 hacc fun y hy => (hafter y hy).imp_left after_tail
  | case6 triple1 ranges1 triple2 ranges2 acc hrun hlow hlow' ih =>
    have hle := lowGtHighP_iff.1 hlow'
    have hskip (next : Triple) (hnext : next ∈ ranges1) := hle.trans (h1.low_subset next hnext)
    rw [intersectLoop, if_neg hrun, if_neg hlow, if_pos hlow', intersect_right hskip,
      inter_comm triple1.denotes, inter_eq_empty_of_low hle, empty_union]
    exact ih h1 (sorted_cons.1 h2).2.2.2 hacc fun y hy => (hafter y hy).imp_right after_tail
  | case7 triple1 ranges1 triple2 ranges2 acc hrun hlow hlow' hnone =>
    obtain ⟨acc1, hstore, -⟩ := store_common hrun hacc hafter
    exact absurd hnone (by rw [hstore]; exact Option.some_ne_none acc1)
  | case8 triple1 ranges1 triple2 ranges2 acc hrun hlow hlow' acc' hstore hgt ih =>
    obtain ⟨acc1, hstore', hholds⟩ := store_common hrun hacc hafter
    obtain rfl : acc' = acc1 := Option.some.inj (hstore.symm.trans hstore')
    have hskip (next : Triple) (hnext : next ∈ ranges2) :=
      (le_of_highGtHighP hgt).trans ((sorted_cons.1 h2).2.2.1 next hnext)
    rw [intersectLoop, if_neg hrun, if_neg hlow, if_neg hlow', hstore,
      intersect_left hskip, ← union_assoc]
    simp only [hgt, if_true]
    refine ih (sorted_cons.1 h1).2.2.2 h2 hholds fun y hy =>
      hy.elim (fun hy => (hafter y hy).imp_left after_tail) fun hy => .inl ?_
    exact fun next hnext => (sorted_cons.1 h1).2.2.1 next hnext hy.1.2.2
  | case9 triple1 ranges1 triple2 ranges2 acc hrun hlow hlow' acc' hstore hgt ih =>
    obtain ⟨acc1, hstore', hholds⟩ := store_common hrun hacc hafter
    obtain rfl : acc' = acc1 := Option.some.inj (hstore.symm.trans hstore')
    have hskip (next : Triple) (hnext : next ∈ ranges1) :=
      (le_of_not_highGtHighP hgt).trans ((sorted_cons.1 h1).2.2.1 next hnext)
    rw [intersectLoop, if_neg hrun, if_neg hlow, if_neg hlow', hstore,
      intersect_right hskip, ← union_assoc]
    simp only [hgt, Bool.false_eq_true, if_false]
    refine ih h1 (sorted_cons.1 h2).2.2.2 hholds fun y hy =>
      hy.elim (fun hy => (hafter y hy).imp_right after_tail) fun hy => .inr ?_
    exact fun next hnext => (sorted_cons.1 h2).2.2.1 next hnext hy.2.2.2

theorem intersectRational_spec (h1 : Input ranges1) (h2 : Input ranges2) :
    Returns (intersectRational ranges1 ranges2) (denotes ranges1 ∩ denotes ranges2) := by
  obtain ⟨acc', hloop, hholds⟩ := intersectLoop_spec h1.sorted h2.sorted holds_empty fun y hy =>
    absurd hy (Set.notMem_empty y)
  rw [empty_union] at hholds
  exact hholds.returns hloop

/-! ## Difference -/

/-- The numbers of a range before another range. -/
def partBefore (triple triple2 : Triple) : Set ℚ :=
  {y | y ∈ triple.denotes ∧ y ∈ triple2.low.before}

/-- The numbers of a range in another one that are not of its run. -/
def partWithin (triple triple2 : Triple) : Set ℚ :=
  {y | y ∈ triple.denotes ∧ ¬ triple2.run.Has y ∧ y ∉ triple2.low.before ∧ y ∈ triple2.high.upto}

/-- The numbers of a range after another range. -/
def partAfter (triple triple2 : Triple) : Set ℚ := {y | y ∈ triple.denotes ∧ y ∉ triple2.high.upto}

theorem denotes_diff (h : Sorted (triple2 :: ranges2)) :
    triple.denotes \ denotes (triple2 :: ranges2) =
    partBefore triple triple2 ∪ partWithin triple triple2 ∪
      partAfter triple triple2 \ denotes ranges2 := by
  have hrest {y : ℚ} (hup : y ∈ triple2.high.upto) : y ∉ denotes ranges2 :=
    not_mem_of_before fun next hnext => (sorted_cons.1 h).2.2.1 next hnext hup
  ext y
  rw [denotes_cons]
  constructor
  · rintro ⟨hy, hnot⟩
    have hnot2 : y ∉ triple2.denotes := fun h => hnot (.inl h)
    by_cases hlow : y ∈ triple2.low.before
    · exact .inl (.inl ⟨hy, hlow⟩)
    by_cases hup : y ∈ triple2.high.upto
    · exact .inl (.inr ⟨hy, fun hrun => hnot2 ⟨hrun, hlow, hup⟩, hlow, hup⟩)
    · exact .inr ⟨⟨hy, hup⟩, fun h => hnot (.inr h)⟩
  · rintro ((⟨hy, hlow⟩ | ⟨hy, hrun, -, hup⟩) | ⟨⟨hy, hup⟩, hnot⟩)
    · exact ⟨hy, fun hor => hor.elim (fun h => h.2.1 hlow) (hrest (h.before_subset hlow))⟩
    · exact ⟨hy, fun hor => hor.elim (fun h => hrun h.1) (hrest hup)⟩
    · exact ⟨hy, fun hor => hor.elim (fun h => hup h.2.2) hnot⟩

/-- What is left of a run after a high bound. -/
structure Continues (run : Run) (x low : Bound) : Prop where
  valid : low.ValidFor run
  subset : x.upto ⊆ low.before
  same : ∀ y, run.Has y → y ∈ low.before → y ∈ x.upto

theorem flipExclusion_continues {run : Run} {x : Bound} (hx : x ≠ .absent) :
    ∃ low, flipExclusion x true run = some low ∧ Continues run x low := by
  obtain ⟨low, hflip, hresumes⟩ := @flipExclusion_low x run hx
  exact ⟨low, hflip, hresumes.valid, hresumes.subset, hresumes.same⟩

theorem flipExclusion2_continues {run : Run} {current x : Bound} (hx : x ≠ .absent)
    (hvalid : current.ValidFor run)
    (hle : current.before ⊆ x.upto) : ∃ low, flipExclusion2 current x true run true = some low ∧
      Continues run x low := by
  obtain ⟨low, hflip, hresumes⟩ := @flipExclusion_low x run hx
  unfold flipExclusion2
  simp only [hflip, if_true, Option.bind_eq_bind, Option.bind_some]
  by_cases hcmp : lowLeLowP low current = true
  · rw [if_pos hcmp]
    rw [lowLeLowP_iff] at hcmp
    exact ⟨current, rfl, hvalid, hresumes.subset.trans hcmp, fun _ _ hy => hle hy⟩
  · rw [if_neg hcmp]
    exact ⟨low, rfl, hresumes.valid, hresumes.subset, hresumes.same⟩

theorem storeBefore_spec (htriple : Valid triple) (hacc : Holds acc s)
    (hafter : ∀ y ∈ s, y ∈ triple.low.before)
    (hbottom : ¬ triple2.low.before ⊆ triple.low.before)
    (hmeet : ¬ triple.high.upto ⊆ triple2.low.before) :
    ∃ acc', storeBefore triple triple2.low acc = some acc' ∧
      Holds acc' (s ∪ partBefore triple triple2) := by
  have hne : triple2.low ≠ .absent := fun h => hbottom (by rw [h]; exact Set.empty_subset _)
  obtain ⟨high, hflip, hstops⟩ := @flipExclusion_high triple2.low triple.run hne
  obtain ⟨acc', hstore, hholds⟩ :=
    @store_after acc s { triple with high := high } hacc ⟨htriple.low, hstops.valid,
      htriple.run⟩ hafter
  have hsub := subset_of_not_subset triple2.low.isLowerSet_before triple.high.isLowerSet_upto hmeet
  have hdenotes : Triple.denotes { triple with high := high } = partBefore triple triple2 := by
    ext y
    constructor
    · rintro ⟨hy, hlow, hup⟩
      exact ⟨⟨hy, hlow, hsub (hstops.subset hup)⟩, hstops.subset hup⟩
    · rintro ⟨⟨hy, hlow, -⟩, hbefore⟩
      exact ⟨hy, hlow, hstops.same y hy hbefore⟩
  refine ⟨acc', ?_, hdenotes ▸ hholds⟩
  unfold storeBefore
  rw [hflip]
  exact hstore

theorem storeOverlap_spec {low high : Bound} (hacc : Holds acc s) (hafter : ∀ y ∈ s, y ∈ low.before)
    (hrun : triple.run &&& ~~~triple2.run ≠ 0)
    (hlow : ∀ y, y ∈ low.before ↔ y ∈ triple.low.before ∨ y ∈ triple2.low.before)
    (hhigh : ∀ y, y ∈ high.upto ↔ y ∈ triple.high.upto ∧ y ∈ triple2.high.upto) :
    ∃ acc', store (overlap (triple.run &&& ~~~triple2.run) low high) acc = some acc' ∧
      Holds acc' (s ∪ partWithin triple triple2) := by
  have hlow' := @coerceRationalBound_low (triple.run &&& ~~~triple2.run) low
  have hhigh' := @coerceRationalBound_high (triple.run &&& ~~~triple2.run) high
  have hdenotes : (overlap (triple.run &&& ~~~triple2.run) low high).denotes =
      partWithin triple triple2 := by
    ext y
    constructor
    · rintro ⟨hy, hnlow, hup⟩
      obtain ⟨hy1, hy2⟩ := has_and.1 hy
      have hnlow1 : y ∉ low.before := fun h => hnlow (hlow'.subset h)
      have hup1 := (hhigh y).1 (hhigh'.subset hup)
      exact ⟨⟨hy1, fun h => hnlow1 ((hlow y).2 (.inl h)), hup1.1⟩, has_not.1 hy2,
        fun h => hnlow1 ((hlow y).2 (.inr h)), hup1.2⟩
    · rintro ⟨⟨hy1, hnlow1, hup1⟩, hy2, hnlow2, hup2⟩
      have hy : (triple.run &&& ~~~triple2.run).Has y := has_and.2 ⟨hy1, has_not.2 hy2⟩
      exact ⟨hy, fun h => ((hlow y).1 (hlow'.same y hy h)).elim hnlow1 hnlow2,
        hhigh'.same y hy ((hhigh y).2 ⟨hup1, hup2⟩)⟩
  rw [← hdenotes]
  exact store_after hacc ⟨hlow'.valid, hhigh'.valid, hrun⟩ fun y hy => hlow'.subset (hafter y hy)

/-- The rest of the second vector is enough for the ranges after the triple. -/
structure Leaves (triple : Triple) (ranges2 : List Triple) (left : List Triple) : Prop where
  sorted : Sorted left
  same : ∀ y, y ∉ triple.high.upto → (y ∈ denotes ranges2 ↔ y ∈ denotes left)

theorem Leaves.refl (h : Sorted ranges2) : Leaves triple ranges2 ranges2 := ⟨h, fun _ _ => Iff.rfl⟩

theorem Leaves.cons {left : List Triple} (h : Leaves triple ranges2 left)
    (hsub : triple2.high.upto ⊆ triple.high.upto) : Leaves triple (triple2 :: ranges2) left :=
  ⟨h.sorted, fun y hy =>
    mem_denotes_cons.trans ((or_iff_right fun h2 => hy (hsub h2.2.2)).trans (h.same y hy))⟩

/-- The inner loop has stored what is left of the triple. -/
def Subtracts (triple : Triple) (ranges2 : List Triple) (s : Set ℚ)
    (returned : Option (List Triple × Result)) : Prop :=
  ∃ left acc', returned = some (left, acc') ∧ Holds acc' (s ∪ triple.denotes \ denotes ranges2) ∧
    Leaves triple ranges2 left

theorem Subtracts.rest {returned : Option (List Triple × Result)} (h2 : Sorted (triple2 :: ranges2))
    (hhigh : triple2.high.upto ⊆ triple.high.upto) (hlow : triple.low.before ⊆ triple2.high.upto)
    (hc : Continues triple.run triple2.high low)
    (h : Subtracts { triple with low := low } ranges2 (s ∪ partBefore triple triple2 ∪
      partWithin triple triple2) returned) :
    Subtracts triple (triple2 :: ranges2) s returned := by
  obtain ⟨left, acc', heq, hholds, hleaves⟩ := h
  have hafter : Triple.denotes { triple with low := low } = partAfter triple triple2 := by
    ext y
    constructor
    · rintro ⟨hy, hnlow, hup⟩
      exact ⟨⟨hy, fun h => hnlow (hc.subset (hlow h)), hup⟩, fun h => hnlow (hc.subset h)⟩
    · rintro ⟨⟨hy, -, hup⟩, hnot⟩
      exact ⟨hy, fun h => hnot (hc.same y hy h), hup⟩
  refine ⟨left, acc', heq, ?_, Leaves.cons ⟨hleaves.sorted, hleaves.same⟩ hhigh⟩
  rw [denotes_diff h2, ← hafter, ← union_assoc, ← union_assoc]
  exact hholds

theorem partAfter_eq_empty (h : triple.high.upto ⊆ triple2.high.upto) :
    partAfter triple triple2 = ∅ :=
  Set.eq_empty_of_forall_notMem fun _ hy => hy.2 (h hy.1.2.2)

theorem partBefore_eq_empty (h : triple2.low.before ⊆ triple.low.before) :
    partBefore triple triple2 = ∅ :=
  Set.eq_empty_of_forall_notMem fun _ hy => hy.1.2.1 (h hy.2)

theorem partWithin_eq_empty (h : triple.run &&& ~~~triple2.run = 0) :
    partWithin triple triple2 = ∅ := by
  refine Set.eq_empty_of_forall_notMem fun y hy => ?_
  have hand : (triple.run &&& ~~~triple2.run).Has y := has_and.2 ⟨hy.1.1, has_not.2 hy.2.1⟩
  rw [h] at hand
  exact not_has_zero hand

/-- The numbers that have been stored of a triple are before what goes on after another one. -/
theorem Continues.after (hc : Continues triple.run triple2.high low)
    (hlow : triple.low.before ⊆ triple2.high.upto)
    (h2 : Sorted (triple2 :: ranges2)) (hafter : ∀ y ∈ s, y ∈ triple.low.before) :
    ∀ y ∈ s ∪ partBefore triple triple2 ∪ partWithin triple triple2, y ∈ low.before := by
  rintro y ((hy | hy) | hy)
  · exact hc.subset (hlow (hafter y hy))
  · exact hc.subset (h2.before_subset hy.2)
  · exact hc.subset hy.2.2.2

theorem Continues.nonempty (hc : Continues triple.run triple2.high low) (htriple : Valid triple)
    (htop : ¬ triple.high.upto ⊆ triple2.high.upto) : ¬ triple.high.upto ⊆ low.before := by
  obtain ⟨y, hy, hnot, hup⟩ :=
    exists_upto htriple.high htriple.run triple2.high.isLowerSet_upto htop
  exact fun hsub => hnot (hc.same y hy (hsub hup))

theorem diff_eq_of_disjoint {t : Set ℚ} (h : ∀ y ∈ s, y ∉ t) : s \ t = s := by
  ext y
  exact ⟨fun hy => hy.1, fun hy => ⟨hy, h y hy⟩⟩

theorem Subtracts.top (h2 : Sorted (triple2 :: ranges2))
    (htop : triple.high.upto ⊆ triple2.high.upto)
    (hacc : Holds acc (s ∪ partBefore triple triple2 ∪ partWithin triple triple2)) :
    Subtracts triple (triple2 :: ranges2) s (some (triple2 :: ranges2, acc)) := by
  refine ⟨_, acc, rfl, ?_, .refl h2⟩
  rwa [denotes_diff h2, partAfter_eq_empty htop, Set.empty_sdiff, union_empty, ← union_assoc]

theorem differenceTriple_spec (htriple : Valid triple)
    (hne : ¬ triple.high.upto ⊆ triple.low.before) (h2 : Sorted ranges2)
    (hacc : Holds acc s) (hafter : ∀ y ∈ s, y ∈ triple.low.before) :
    Subtracts triple ranges2 s (differenceTriple triple ranges2 acc) := by
  induction ranges2 generalizing triple acc s with
  | nil =>
    obtain ⟨acc', hstore, hholds⟩ := store_after hacc htriple hafter
    refine ⟨[], acc', ?_, by rwa [denotes_nil, Set.sdiff_empty], .refl h2⟩
    rw [differenceTriple, hstore]
    rfl
  | cons triple2 ranges2 ih =>
    obtain ⟨hvalid2, hne2, hnext, hsorted⟩ := sorted_cons.1 h2
    rw [differenceTriple]
    by_cases hend : lowGtHighP triple2.low triple.high = true
    · rw [if_pos hend]
      rw [lowGtHighP_iff] at hend
      obtain ⟨acc', hstore, hholds⟩ := store_after hacc htriple hafter
      refine ⟨triple2 :: ranges2, acc', by rw [hstore]; rfl, ?_, .refl h2⟩
      rwa [diff_eq_of_disjoint fun y hy => not_mem_of_before fun next hnext => ?_]
      rcases mem_cons.1 hnext with rfl | hnext
      · exact hend hy.2.2
      · exact h2.low_subset next hnext (hend hy.2.2)
    rw [if_neg hend]
    rw [lowGtHighP_iff] at hend
    by_cases hskip : lowGtHighP triple.low triple2.high = true
    · rw [if_pos hskip]
      rw [lowGtHighP_iff] at hskip
      obtain ⟨left, acc', heq, hholds, hleaves⟩ := ih htriple hne hsorted hacc hafter
      have hlow := subset_of_not_subset triple.low.isLowerSet_before triple.high.isLowerSet_upto hne
      refine ⟨left, acc', heq, ?_, hleaves.cons (hskip.trans hlow)⟩
      have hsame : triple.denotes \ denotes (triple2 :: ranges2) =
          triple.denotes \ denotes ranges2 := by
        ext y
        refine and_congr_right fun hy =>
          not_congr (mem_denotes_cons.trans (or_iff_right fun h => ?_))
        exact hy.2.1 (hskip h.2.2)
      rwa [hsame]
    rw [if_neg hskip]
    rw [lowGtHighP_iff] at hskip
    have hlow :=
      subset_of_not_subset triple.low.isLowerSet_before triple2.high.isLowerSet_upto hskip
    have hinner (acc' : Result) (low : Bound) (htop : ¬ triple.high.upto ⊆ triple2.high.upto)
        (hholds : Holds acc' (s ∪ partBefore triple triple2 ∪ partWithin triple triple2))
        (hc : Continues triple.run triple2.high low) :
        Subtracts triple (triple2 :: ranges2) s
          (differenceTriple { triple with low := low } ranges2 acc') :=
      .rest h2 (subset_of_not_subset triple2.high.isLowerSet_upto triple.high.isLowerSet_upto htop)
        hlow hc
        (@ih { triple with low := low } acc' _ ⟨hc.valid, htriple.high,
          htriple.run⟩ (hc.nonempty htriple htop) hsorted hholds (hc.after hlow h2 hafter))
    have hne2 (htop : ¬ triple.high.upto ⊆ triple2.high.upto) : triple2.high ≠ .absent :=
      fun h => htop (by
      rw [h]
      exact Set.subset_univ _)
    have hwithin {acc' : Result} (hz : triple.run &&& ~~~triple2.run = 0)
      (h : Holds acc' (s ∪ partBefore triple triple2)) :
        Holds acc' (s ∪ partBefore triple triple2 ∪ partWithin triple triple2) := by
      rwa [partWithin_eq_empty hz, union_empty]
    by_cases hb : lowLeLowP triple2.low triple.low = true
    · have hb' := lowLeLowP_iff.1 hb
      have hbefore : Holds acc (s ∪ partBefore triple triple2) := by
        rwa [partBefore_eq_empty hb', union_empty]
      have hlower (y : ℚ) : y ∈ triple.low.before ↔ y ∈ triple.low.before ∨
          y ∈ triple2.low.before :=
        ⟨.inl, fun h => h.elim id fun h => hb' h⟩
      have hafter' : ∀ y ∈ s ∪ partBefore triple triple2, y ∈ triple.low.before := by
        rw [partBefore_eq_empty hb', union_empty]
        exact hafter
      by_cases ht : highGeHighP triple2.high triple.high = true
      · have ht' := highGeHighP_iff.1 ht
        by_cases hz : triple.run &&& ~~~triple2.run = 0
        · simp only [hb, ht, hz, Bool.and_true, if_true]
          exact .top h2 ht' (hwithin hz hbefore)
        simp only [hb, ht, hz, Bool.and_true, if_true, if_false]
        obtain ⟨acc', hstore, hholds⟩ :=
          @storeOverlap_spec triple triple2 acc _ triple.low triple.high hbefore hafter' hz hlower
          fun y => ⟨fun h => ⟨h, ht' h⟩, fun h => h.1⟩
        rw [hstore]
        exact .top h2 ht' hholds
      · have ht' : ¬ triple.high.upto ⊆ triple2.high.upto := fun h => ht (highGeHighP_iff.2 h)
        have hsub :=
          subset_of_not_subset triple2.high.isLowerSet_upto triple.high.isLowerSet_upto ht'
        obtain ⟨low, hflip, hc⟩ := flipExclusion2_continues (hne2 ht') htriple.low hlow
        by_cases hz : triple.run &&& ~~~triple2.run = 0
        · simp only [hb, ht, hz, Bool.false_and, Bool.false_eq_true, if_true, if_false, hflip]
          exact hinner acc low ht' (hwithin hz hbefore) hc
        obtain ⟨acc', hstore, hholds⟩ :=
          @storeOverlap_spec triple triple2 acc _ triple.low triple2.high hbefore hafter' hz hlower
          fun y => ⟨fun h => ⟨hsub h, h⟩, fun h => h.2⟩
        simp only [hb, ht, hz, Bool.false_and, Bool.false_eq_true, if_true, if_false, hflip, hstore]
        exact hinner acc' low ht' hholds hc
    · have hb' : ¬ triple2.low.before ⊆ triple.low.before := fun h => hb (lowLeLowP_iff.2 h)
      have hsub2 :=
        subset_of_not_subset triple.low.isLowerSet_before triple2.low.isLowerSet_before hb'
      obtain ⟨acc1, hstore1, hbefore⟩ := storeBefore_spec htriple hacc hafter hb' hend
      have hlower (y : ℚ) : y ∈ triple2.low.before ↔ y ∈ triple.low.before ∨
          y ∈ triple2.low.before :=
        ⟨.inr, fun h => h.elim (fun h => hsub2 h) id⟩
      have hafter' : ∀ y ∈ s ∪ partBefore triple triple2, y ∈ triple2.low.before := fun y hy =>
        hy.elim (fun h => hsub2 (hafter y h)) fun h => h.2
      by_cases ht : highGeHighP triple2.high triple.high = true
      · have ht' := highGeHighP_iff.1 ht
        by_cases hz : triple.run &&& ~~~triple2.run = 0
        · simp only [hb, ht, hz, Bool.and_false, Bool.false_eq_true, if_true, if_false, hstore1]
          exact .top h2 ht' (hwithin hz hbefore)
        obtain ⟨acc', hstore, hholds⟩ :=
          @storeOverlap_spec triple triple2 acc1 _ triple2.low triple.high hbefore hafter' hz hlower
          fun y => ⟨fun h => ⟨h, ht' h⟩, fun h => h.1⟩
        simp only [hb, ht, hz, Bool.and_false, Bool.false_eq_true, if_true, if_false, hstore1,
          Option.bind_eq_bind, Option.bind_some, hstore]
        exact .top h2 ht' hholds
      · have ht' : ¬ triple.high.upto ⊆ triple2.high.upto := fun h => ht (highGeHighP_iff.2 h)
        have hsub :=
          subset_of_not_subset triple2.high.isLowerSet_upto triple.high.isLowerSet_upto ht'
        obtain ⟨low, hflip, hc⟩ := @flipExclusion_continues triple.run triple2.high (hne2 ht')
        by_cases hz : triple.run &&& ~~~triple2.run = 0
        · simp only [hb, ht, hz, Bool.and_false, Bool.false_eq_true, if_true,
            if_false, hflip, hstore1]
          exact hinner acc1 low ht' (hwithin hz hbefore) hc
        obtain ⟨acc', hstore, hholds⟩ :=
          @storeOverlap_spec triple triple2 acc1 _ triple2.low triple2.high hbefore
            hafter' hz hlower
          fun y => ⟨fun h => ⟨hsub h, h⟩, fun h => h.2⟩
        simp only [hb, ht, hz, Bool.and_false, Bool.false_eq_true, if_false, hflip, hstore1,
          Option.bind_some, hstore]
        exact hinner acc' low ht' hholds hc

theorem storeAll_after (h1 : Sorted ranges1) (hacc : Holds acc s)
    (hafter : ∀ y ∈ s, ∀ next ∈ ranges1, y ∈ next.low.before) :
    ∃ acc', storeAll ranges1 acc = some acc' ∧ Holds acc' (s ∪ denotes ranges1) := by
  induction ranges1 generalizing acc s with
  | nil =>
    rw [denotes_nil, union_empty]
    exact ⟨acc, rfl, hacc⟩
  | cons triple1 ranges1 ih =>
    obtain ⟨hvalid, -, hnext, hsorted⟩ := sorted_cons.1 h1
    obtain ⟨acc1, hstore, hholds1⟩ :=
      store_after hacc hvalid fun y hy => hafter y hy triple1 mem_cons_self
    obtain ⟨acc', hall, hholds⟩ := ih hsorted hholds1 fun y hy next hn =>
      hy.elim (fun hy => hafter y hy next (mem_cons_of_mem _ hn)) fun hy => hnext next hn hy.2.2
    rw [union_assoc, ← denotes_cons] at hholds
    exact ⟨acc', by rw [storeAll, foldlM_cons, hstore]; exact hall, hholds⟩

theorem differenceLoop_spec (h1 : Sorted ranges1) (h2 : Sorted ranges2) (hacc : Holds acc s)
    (hafter : ∀ y ∈ s, ∀ next ∈ ranges1, y ∈ next.low.before) :
    ∃ acc', differenceLoop ranges1 ranges2 acc = some acc' ∧
      Holds acc' (s ∪ denotes ranges1 \ denotes ranges2) := by
  induction ranges1 generalizing ranges2 acc s with
  | nil =>
    rw [denotes_nil, Set.empty_sdiff, union_empty]
    exact ⟨acc, by rw [differenceLoop], hacc⟩
  | cons triple1 ranges1 ih =>
    obtain ⟨hvalid, hne, hnext, hsorted⟩ := sorted_cons.1 h1
    have hend (y : ℚ) (hy : y ∈ denotes ranges1) : y ∉ triple1.high.upto := by
      obtain ⟨next, hn, hmem⟩ := hy
      exact fun hup => hmem.2.1 (hnext next hn hup)
    cases ranges2 with
    | nil =>
      rw [denotes_nil, Set.sdiff_empty, differenceLoop]
      exact storeAll_after h1 hacc hafter
    | cons triple2 ranges2 =>
      obtain ⟨left, acc1, heq, hholds1, hleaves⟩ :=
        @differenceTriple_spec triple1 _ acc s hvalid hne h2 hacc fun y hy =>
        hafter y hy triple1 mem_cons_self
      obtain ⟨acc', hloop, hholds⟩ := ih hsorted hleaves.sorted hholds1 fun y hy next hn =>
        hy.elim (fun hy => hafter y hy next (mem_cons_of_mem _ hn)) fun hy => hnext next hn hy.1.2.2
      refine ⟨acc', by simp only [differenceLoop, heq, hloop], ?_⟩
      have hrest :
          denotes ranges1 \ denotes left = denotes ranges1 \ denotes (triple2 :: ranges2) := by
        ext y
        exact and_congr_right fun hy => not_congr (hleaves.same y (hend y hy)).symm
      rwa [hrest, union_assoc, ← Set.union_sdiff_distrib, ← denotes_cons] at hholds

theorem differenceRational_spec (h1 : Input ranges1) (h2 : Input ranges2) :
    Returns (differenceRational ranges1 ranges2) (denotes ranges1 \ denotes ranges2) := by
  obtain ⟨acc', hloop, hholds⟩ := differenceLoop_spec h1.sorted h2.sorted holds_empty fun y hy =>
    absurd hy (Set.notMem_empty y)
  rw [empty_union] at hholds
  exact hholds.returns hloop

end Sbcl.RationalRange
