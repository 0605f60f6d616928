import Sbcl.Types.RangeDifference

/-!
# Vectors that the operations make, and the decisions on them

* `Obtained` : the vectors that come from vectors of one triple by unions, intersections and
  differences;
* `rationalRanges_exact` : the operations on them return the sets they are named after;
* `subtypeTriple_spec`, `subtypeRational_spec` : a number that the second vector does not have is
  found;
* `Within`, `exists_within` : the triple of a vector that has all numbers of a range;
* `rationalDecisions_exact_iff` : the decisions, and the runs that are not collapsed.
-/

namespace Sbcl.RationalRange

open List Set

variable {triple triple2 next : Triple} {ranges ranges1 ranges2 left : List Triple} {y : ℚ}

/-- The vectors that the operations make of vectors of one triple. -/
inductive Obtained (base : Triple → Prop) : List Triple → Prop
  | single (triple : Triple) : base triple → Obtained base [triple]
  | union {ranges1 ranges2 ranges : List Triple} {mask : Run} : Obtained base ranges1 →
    Obtained base ranges2 →
      unionRational ranges1 ranges2 = some (ranges, mask) → Obtained base ranges
  | intersect {ranges1 ranges2 ranges : List Triple} {mask : Run} : Obtained base ranges1 →
    Obtained base ranges2 →
      intersectRational ranges1 ranges2 = some (ranges, mask) → Obtained base ranges
  | difference {ranges1 ranges2 ranges : List Triple} {mask : Run} : Obtained base ranges1 →
    Obtained base ranges2 →
      differenceRational ranges1 ranges2 = some (ranges, mask) → Obtained base ranges

/-- A triple with bounds of its run and with a number. -/
def Single (triple : Triple) : Prop := Valid triple ∧ triple.denotes.Nonempty

theorem Returns.form {returned : Option Result} {s : Set ℚ} {mask : Run} (h : Returns returned s)
    (heq : returned = some (ranges, mask)) : Form ranges := by
  obtain ⟨ranges', mask', heq', hform, -⟩ := h
  obtain ⟨rfl, rfl⟩ := Prod.mk.inj (Option.some.inj (heq.symm.trans heq'))
  exact hform

theorem Single.nonempty (h : Single triple) : ¬ triple.high.upto ⊆ triple.low.before := by
  obtain ⟨-, y, -, hlow, hup⟩ := h
  exact fun hsub => hlow (hsub hup)

theorem Obtained.input (h : Obtained Single ranges) : Input ranges := by
  induction h with
  | single triple hbase => exact .single hbase.1 hbase.nonempty
  | union _ _ heq ih1 ih2 => exact ((unionRational_spec ih1 ih2).form heq).input
  | intersect _ _ heq ih1 ih2 => exact ((intersectRational_spec ih1 ih2).form heq).input
  | difference _ _ heq ih1 ih2 => exact ((differenceRational_spec ih1 ih2).form heq).input

/-- The operations collapse the runs, so a vector whose runs are not collapsed is one of one triple.
-/
theorem Obtained.form_or (h : Obtained Single ranges) :
    Form ranges ∨ ∃ triple, ranges = [triple] ∧ Single triple ∧ collapsed triple ≠ triple := by
  cases h with
  | single triple hbase =>
    by_cases hc : collapsed triple = triple
    · have hform := (Input.single hbase.1 hbase.nonempty).form
      rw [map_singleton, hc] at hform
      exact .inl hform
    · exact .inr ⟨triple, rfl, hbase, hc⟩
  | union h1 h2 heq => exact .inl ((unionRational_spec h1.input h2.input).form heq)
  | intersect h1 h2 heq => exact .inl ((intersectRational_spec h1.input h2.input).form heq)
  | difference h1 h2 heq => exact .inl ((differenceRational_spec h1.input h2.input).form heq)

/-- Each operation returns a vector of the set that it is named after, and the inclusive or of the
runs. -/
theorem rationalRanges_exact (h1 : Obtained Single ranges1) (h2 : Obtained Single ranges2) :
    (∃ ranges mask, unionRational ranges1 ranges2 = some (ranges, mask) ∧
      denotes ranges = denotes ranges1 ∪ denotes ranges2 ∧ mask = maskOf ranges) ∧
    (∃ ranges mask, intersectRational ranges1 ranges2 = some (ranges, mask) ∧
      denotes ranges = denotes ranges1 ∩ denotes ranges2 ∧ mask = maskOf ranges) ∧
    ∃ ranges mask, differenceRational ranges1 ranges2 = some (ranges, mask) ∧
      denotes ranges = denotes ranges1 \ denotes ranges2 ∧ mask = maskOf ranges := by
  obtain ⟨v1, m1, heq1, -, hm1, hd1⟩ := unionRational_spec h1.input h2.input
  obtain ⟨v2, m2, heq2, -, hm2, hd2⟩ := intersectRational_spec h1.input h2.input
  obtain ⟨v3, m3, heq3, -, hm3, hd3⟩ := differenceRational_spec h1.input h2.input
  exact ⟨⟨v1, m1, heq1, hd1, hm1⟩, ⟨v2, m2, heq2, hd2, hm2⟩, v3, m3, heq3, hd3, hm3⟩

theorem valid_integer (m n : ℤ) : Valid ⟨rangeIntegerRun, .closed m, .closed n⟩ where
  low := ⟨fun _ => .inr ⟨m, rfl⟩, fun h => absurd h (by decide : rangeIntegerRun ≠ rangeRatioRun)⟩
  high := ⟨fun _ => .inr ⟨n, rfl⟩, fun h => absurd h (by decide : rangeIntegerRun ≠ rangeRatioRun)⟩
  run := (by decide : rangeIntegerRun ≠ 0)

theorem valid_ratio_opened (x z : ℚ) : Valid ⟨rangeRatioRun, .opened x, .opened z⟩ where
  low := ⟨fun h => absurd h (by decide : rangeRatioRun ≠ rangeIntegerRun), fun _ _ h => nomatch h⟩
  high := ⟨fun h => absurd h (by decide : rangeRatioRun ≠ rangeIntegerRun), fun _ _ h => nomatch h⟩
  run := (by decide : rangeRatioRun ≠ 0)

theorem single_integers : Single ⟨rangeIntegerRun, .closed (0 : ℤ), .closed (5 : ℤ)⟩ :=
  ⟨valid_integer 0 5, 1, has_integer.2 rfl,
    fun h => absurd (Bound.mem_before_closed.1 h) (by norm_num),
    Bound.mem_upto_closed.2 (by norm_num)⟩

theorem single_ratios : Single ⟨rangeRatioRun, .opened (1 / 3), .opened (3 / 2)⟩ := by
  refine ⟨valid_ratio_opened _ _, 1 / 2, has_ratio.2 ?_,
    fun h => absurd (Bound.mem_before_opened.1 h) (by norm_num),
    Bound.mem_upto_opened.2 (by norm_num)⟩
  exact not_isInt_of_between (n := 0) (by norm_num) (by norm_num)

theorem rationalRanges_exact_mix :
    ∃ ranges mask, unionRational [⟨rangeIntegerRun, .closed (0 : ℤ), .closed (5 : ℤ)⟩]
        [⟨rangeRatioRun, .opened (1 / 3), .opened (3 / 2)⟩] = some (ranges, mask) ∧
      denotes ranges = denotes [⟨rangeIntegerRun, .closed (0 : ℤ), .closed (5 : ℤ)⟩] ∪
        denotes [⟨rangeRatioRun, .opened (1 / 3), .opened (3 / 2)⟩] ∧ mask = maskOf ranges :=
  (rationalRanges_exact (.single _ single_integers) (.single _ single_ratios)).1

/-! ## The subtype relation -/

theorem run_le_iff : ∀ {r s : Run}, r ≠ 0 →
    ((logtest r s = true ∧ r ≤ s) ↔ r ||| s = s) := by decide

theorem has_of_or_eq {r s : Run} (h : r ||| s = s) (hy : r.Has y) : s.Has y :=
  h ▸ has_or.2 (.inl hy)

theorem exists_not_has {r s : Run} (h : r ||| s ≠ s) : ∃ y, r.Has y ∧ ¬ s.Has y := by
  by_contra hnot
  push Not at hnot
  exact h (run_ext fun y => ⟨fun hy => (has_or.1 hy).elim (hnot y) id,
    fun hy => has_or.2 (.inr hy)⟩)

/-- Ranges one after the other, with a number between each two that neither has. -/
structure Spread (ranges : List Triple) : Prop where
  sorted : Sorted ranges
  apart : ranges.IsChain Apart

theorem spread_cons : Spread (triple :: ranges) ↔ Valid triple ∧
    ¬ triple.high.upto ⊆ triple.low.before ∧
    (∀ next ∈ ranges, triple.high.upto ⊆ next.low.before) ∧
      (∀ next ∈ ranges.head?, Apart triple next) ∧ Spread ranges := by
  constructor
  · rintro ⟨hsorted, hapart⟩
    obtain ⟨hvalid, hne, hnext, hsorted⟩ := sorted_cons.1 hsorted
    obtain ⟨hhead, hapart⟩ := isChain_cons.1 hapart
    exact ⟨hvalid, hne, hnext, hhead, hsorted, hapart⟩
  · rintro ⟨hvalid, hne, hnext, hhead, hsorted, hapart⟩
    exact ⟨sorted_cons.2 ⟨hvalid, hne, hnext, hsorted⟩, isChain_cons.2 ⟨hhead, hapart⟩⟩

theorem Obtained.spread (h : Obtained Single ranges) : Spread ranges := by
  refine ⟨h.input.sorted, ?_⟩
  rcases h.form_or with hform | ⟨triple, rfl, -, -⟩
  · exact hform.apart
  · exact .singleton triple

theorem not_mem_of_upto (h : Spread (triple2 :: ranges)) (hy : y ∉ triple2.denotes)
    (hup : y ∈ triple2.high.upto) : y ∉ denotes (triple2 :: ranges) := fun hmem =>
  (mem_denotes_cons.1 hmem).elim hy (not_mem_of_before fun next hnext =>
    (spread_cons.1 h).2.2.1 next hnext hup)

theorem not_mem_of_low (h : Spread (triple2 :: ranges)) (hy : y ∈ triple2.low.before) :
    y ∉ denotes (triple2 :: ranges) :=
  not_mem_of_upto h (fun hmem => hmem.2.1 hy)
    (subset_of_not_subset triple2.low.isLowerSet_before triple2.high.isLowerSet_upto
      (spread_cons.1 h).2.1 hy)

/-- The range has numbers of all kinds, or one that the vector does not have. -/
def Shows (triple : Triple) (ranges2 : List Triple) : Prop :=
  triple.run = rangeRationalRun → (∀ y : ℚ, ∃ z ∈ triple.denotes, kind z = kind y) ∨
    ∃ y ∈ triple.denotes, y ∉ denotes ranges2

theorem inter_not_subset {s t u : Set ℚ} (hs : IsLowerSet s) (ht : IsLowerSet t) (h1 : ¬ s ⊆ u)
    (h2 : ¬ t ⊆ u) : ¬ s ∩ t ⊆ u := by
  rcases hs.total ht with h | h
  · rwa [inter_eq_left.2 h]
  · rwa [inter_eq_right.2 h]

theorem exists_uncovered_of_run (h2 : Spread (triple2 :: ranges)) (hvalid : Valid triple)
    (hne : ¬ triple.high.upto ⊆ triple.low.before) (hshows : Shows triple (triple2 :: ranges))
    (hmeet : ¬ triple2.high.upto ⊆ triple.low.before)
    (hrun : triple.run ||| triple2.run ≠ triple2.run) :
    ∃ y ∈ triple.denotes, y ∉ denotes (triple2 :: ranges) := by
  obtain ⟨x, hx, hx2⟩ := exists_not_has hrun
  have hkind {z : ℚ} (hz : kind z = kind x) : z ∉ triple2.denotes :=
    fun hmem => hx2 (has_of_kind hz.symm hmem.1)
  by_cases hq : triple.run = rangeRationalRun
  · rcases hshows hq with hall | hex
    · obtain ⟨z, hz, hzx⟩ := hall x
      by_cases hmem : z ∈ denotes ranges
      · -- the vector leaves a number out before it goes on
        cases ranges with
        | nil => exact absurd hmem (denotes_nil ▸ notMem_empty z)
        | cons next ranges =>
          obtain ⟨-, -, -, hapart, hspread⟩ := spread_cons.1 h2
          obtain ⟨g, -, hg2, hgnext⟩ := hapart next rfl
          have hznext : z ∉ next.low.before := fun h => not_mem_of_low hspread h hmem
          have hgz := lt_of_mem next.low.isLowerSet_before hgnext hznext
          have hglow : g ∉ triple.low.before := fun h =>
            hg2 (subset_of_not_subset triple.low.isLowerSet_before
              triple2.high.isLowerSet_upto hmeet h)
          refine ⟨g, ⟨hq ▸ has_rational, hglow, triple.high.isLowerSet_upto hgz.le hz.2.2⟩,
            fun hmem => ?_⟩
          exact (mem_denotes_cons.1 hmem).elim (fun h => hg2 h.2.2) (not_mem_of_low hspread hgnext)
      · exact ⟨z, hz, fun h => (mem_denotes_cons.1 h).elim (hkind hzx) hmem⟩
    · exact hex
  · obtain ⟨y, hy, hlow, hup, hup2⟩ :=
      exists_from hvalid.low hvalid.run
        (triple.high.isLowerSet_upto.inter triple2.high.isLowerSet_upto)
      (inter_not_subset triple.high.isLowerSet_upto triple2.high.isLowerSet_upto hne hmeet)
    exact ⟨y, ⟨hy, hlow, hup⟩, not_mem_of_upto h2 (hkind (kind_eq_of_has hq hx hy)) hup2⟩

/-- What goes on after a range shows that the vector does not have it all, or is of one kind. -/
theorem Continues.shows {low : Bound} (h2 : Spread (triple2 :: ranges)) (hvalid : Valid triple)
    (hc : Continues triple.run triple2.high low) (htop : ¬ triple.high.upto ⊆ triple2.high.upto) :
    Shows { triple with low := low } ranges := by
  intro hq
  right
  have hq' : triple.run = rangeRationalRun := hq
  obtain ⟨y, hy, hup2, hup⟩ := exists_upto hvalid.high hvalid.run triple2.high.isLowerSet_upto htop
  have hmem {z : ℚ} (hz : z ∉ triple2.high.upto) (hz' : z ∈ triple.high.upto) :
      z ∈ Triple.denotes { triple with low := low } :=
    ⟨hq ▸ has_rational, fun h => hz (hc.same z (hq' ▸ has_rational) h), hz'⟩
  cases ranges with
  | nil => exact ⟨y, hmem hup2 hup, denotes_nil ▸ notMem_empty y⟩
  | cons next ranges =>
    obtain ⟨-, -, -, hapart, hspread⟩ := spread_cons.1 h2
    obtain ⟨g, -, hg2, hgnext⟩ := hapart next rfl
    by_cases hg : g ∈ triple.high.upto
    · exact ⟨g, hmem hg2 hg, not_mem_of_low hspread hgnext⟩
    · have hyg := lt_of_mem triple.high.isLowerSet_upto hup hg
      exact ⟨y, hmem hup2 hup, not_mem_of_low hspread (next.low.isLowerSet_before hyg.le hgnext)⟩

/-- The rest of the second vector is enough for the ranges after the triple. -/
structure Suffices (triple : Triple) (ranges2 left : List Triple) : Prop where
  spread : Spread left
  same : ∀ y, y ∉ triple.high.upto → (y ∈ denotes ranges2 ↔ y ∈ denotes left)

theorem Suffices.cons (h : Suffices triple ranges2 left)
    (hsub : triple2.high.upto ⊆ triple.high.upto) : Suffices triple (triple2 :: ranges2) left :=
  ⟨h.spread, fun y hy =>
    mem_denotes_cons.trans ((or_iff_right fun h2 => hy (hsub h2.2.2)).trans (h.same y hy))⟩

/-- The inner loop has found a number that the second vector does not have, or has gone through the
triple. -/
def Decides (triple : Triple) (ranges2 : List Triple)
    (returned : Option (Option (List Triple))) : Prop :=
  returned = some none ∧ (∃ y ∈ triple.denotes, y ∉ denotes ranges2) ∨
    ∃ left, returned = some (some left) ∧ triple.denotes ⊆ denotes ranges2 ∧
    Suffices triple ranges2 left

theorem subtypeTriple_spec (hvalid : Valid triple) (hne : ¬ triple.high.upto ⊆ triple.low.before)
    (h2 : Spread ranges2)
    (hshows : Shows triple ranges2) : Decides triple ranges2 (subtypeTriple triple ranges2) := by
  induction ranges2 generalizing triple with
  | nil =>
    obtain ⟨y, hy, hlow, hup⟩ := exists_from hvalid.low hvalid.run triple.high.isLowerSet_upto hne
    exact .inl ⟨rfl, y, ⟨hy, hlow, hup⟩, denotes_nil ▸ notMem_empty y⟩
  | cons triple2 ranges2 ih =>
    obtain ⟨-, -, -, -, hspread⟩ := spread_cons.1 h2
    rw [subtypeTriple]
    by_cases hend : lowGtHighP triple2.low triple.high = true
    · rw [if_pos hend]
      rw [lowGtHighP_iff] at hend
      obtain ⟨y, hy, hlow, hup⟩ := exists_from hvalid.low hvalid.run triple.high.isLowerSet_upto hne
      exact .inl ⟨rfl, y, ⟨hy, hlow, hup⟩, not_mem_of_low h2 (hend hup)⟩
    rw [if_neg hend]
    by_cases hskip : lowGtHighP triple.low triple2.high = true
    · rw [if_pos hskip]
      rw [lowGtHighP_iff] at hskip
      have hnot {y : ℚ} (hy : y ∈ triple.denotes) : y ∉ triple2.denotes :=
        fun h => hy.2.1 (hskip h.2.2)
      have hlow := subset_of_not_subset triple.low.isLowerSet_before triple.high.isLowerSet_upto hne
      have hshows' : Shows triple ranges2 := fun hq => (hshows hq).imp_right fun ⟨y, hy, hmem⟩ =>
        ⟨y, hy, fun h => hmem (mem_denotes_cons.2 (.inr h))⟩
      rcases ih hvalid hne hspread hshows' with ⟨heq, y, hy, hmem⟩ | ⟨left, heq, hsub, hleft⟩
      · exact .inl ⟨heq, y, hy, fun h => (mem_denotes_cons.1 h).elim (hnot hy) hmem⟩
      · exact .inr ⟨left, heq, fun y hy => mem_denotes_cons.2 (.inr (hsub hy)),
          hleft.cons (hskip.trans hlow)⟩
    rw [if_neg hskip]
    rw [lowGtHighP_iff] at hend hskip
    by_cases hrun : logtest triple.run triple2.run = true ∧ triple.run ≤ triple2.run
    · rw [if_neg (not_not.2 hrun)]
      rw [run_le_iff hvalid.run] at hrun
      by_cases hbegin : lowLeLowP triple2.low triple.low = true
      · rw [if_neg (not_not.2 hbegin)]
        rw [lowLeLowP_iff] at hbegin
        have hmem2 {y : ℚ} (hy : y ∈ triple.denotes) (hup : y ∈ triple2.high.upto) :
            y ∈ triple2.denotes :=
          ⟨has_of_or_eq hrun hy.1, fun h => hy.2.1 (hbegin h), hup⟩
        by_cases htop : highGeHighP triple2.high triple.high = true
        · rw [if_pos htop]
          rw [highGeHighP_iff] at htop
          exact .inr ⟨_, rfl, fun y hy => mem_denotes_cons.2 (.inl (hmem2 hy (htop hy.2.2))), h2,
            fun _ _ => Iff.rfl⟩
        rw [if_neg htop]
        rw [highGeHighP_iff] at htop
        have habsent : triple2.high ≠ .absent := fun h => htop (by
          rw [h]
          exact subset_univ _)
        obtain ⟨low, hflip, hc⟩ := @flipExclusion_continues triple.run triple2.high habsent
        have hlow :=
          subset_of_not_subset triple.low.isLowerSet_before triple2.high.isLowerSet_upto hskip
        have hhigh :=
          subset_of_not_subset triple2.high.isLowerSet_upto triple.high.isLowerSet_upto htop
        simp only [hflip]
        rcases @ih { triple with low := low } ⟨hc.valid, hvalid.high,
          hvalid.run⟩ (hc.nonempty hvalid htop) hspread
          (hc.shows h2 hvalid htop) with ⟨heq, y, hy, hmem⟩ | ⟨left, heq, hsub, hleft⟩
        · have hup2 : y ∉ triple2.high.upto := fun h => hy.2.1 (hc.subset h)
          refine .inl ⟨heq, y, ⟨hy.1, fun h => hup2 (hlow h), hy.2.2⟩, fun h => ?_⟩
          exact (mem_denotes_cons.1 h).elim (fun h => hup2 h.2.2) hmem
        refine .inr ⟨left, heq, fun y hy => mem_denotes_cons.2 ?_,
          Suffices.cons ⟨hleft.spread, hleft.same⟩ hhigh⟩
        by_cases hup2 : y ∈ triple2.high.upto
        · exact .inl (hmem2 hy hup2)
        · exact .inr (hsub ⟨hy.1, fun h => hup2 (hc.same y hy.1 h), hy.2.2⟩)
      · rw [if_pos hbegin]
        rw [lowLeLowP_iff] at hbegin
        obtain ⟨y, hy, hlow, hup, hlow2⟩ := exists_from hvalid.low hvalid.run
          (triple.high.isLowerSet_upto.inter triple2.low.isLowerSet_before)
          (inter_not_subset triple.high.isLowerSet_upto triple2.low.isLowerSet_before hne hbegin)
        exact .inl ⟨rfl, y, ⟨hy, hlow, hup⟩, not_mem_of_low h2 hlow2⟩
    · rw [if_pos hrun]
      rw [run_le_iff hvalid.run] at hrun
      exact .inl ⟨rfl, exists_uncovered_of_run h2 hvalid hne hshows hskip hrun⟩

theorem subtypeRational_spec (h1 : Form ranges1) (h2 : Spread ranges2) :
    ∃ answer, subtypeRational ranges1 ranges2 = some answer ∧
      (answer = true ↔ denotes ranges1 ⊆ denotes ranges2) := by
  induction ranges1 generalizing ranges2 with
  | nil => exact ⟨true, rfl, fun _ => denotes_nil ▸ empty_subset _, fun _ => rfl⟩
  | cons triple1 ranges1 ih =>
    obtain ⟨hgood, -, hform⟩ := form_cons.1 h1
    have hshows : Shows triple1 ranges2 := fun hq => .inl fun y => by
      obtain ⟨z, hz, hmem⟩ := hgood.exists_mem (hq ▸ has_rational : triple1.run.Has y)
      exact ⟨z, hmem, hz⟩
    rw [subtypeRational, denotes_cons, union_subset_iff]
    rcases subtypeTriple_spec hgood.valid hgood.nonempty h2 hshows with ⟨heq, y, hy, hmem⟩ | ⟨left,
      heq, hsub, hleft⟩
    · rw [heq]
      exact ⟨false, rfl, (fun h => nomatch h), fun h => absurd (h.1 hy) hmem⟩
    rw [heq]
    obtain ⟨answer, hanswer, hiff⟩ := ih hform hleft.spread
    refine ⟨answer, hanswer, hiff.trans ?_⟩
    rw [and_iff_right hsub]
    have hsame {y : ℚ} (hy : y ∈ denotes ranges1) := hleft.same y fun hup => not_mem_of_before
      (fun next hnext => h1.upto_subset next hnext hup) hy
    exact ⟨fun h y hy => (hsame hy).2 (h hy), fun h y hy => (hsame hy).1 (h hy)⟩

/-! ## Membership -/

theorem lowGtHighP_closed {b : Bound} {x : ℚ} : lowGtHighP b (.closed x) = true ↔ x ∈ b.before := by
  rw [lowGtHighP_iff]
  exact ⟨fun h => h (mem_Iic.2 le_rfl), fun h z hz => b.isLowerSet_before hz h⟩

theorem closed_lowGtHighP {b : Bound} {x : ℚ} : lowGtHighP (.closed x) b = true ↔ x ∉ b.upto := by
  rw [lowGtHighP_iff]
  exact ⟨fun h hx => lt_irrefl x (h hx), fun h z hz => lt_of_mem b.isLowerSet_upto hz h⟩

theorem typepRational_spec (h : Sorted ranges) (x : ℚ) : typepRational x (kind x) ranges = true ↔
    x ∈ denotes ranges := by
  induction ranges with
  | nil => exact ⟨(fun h => nomatch h), fun h => absurd h (denotes_nil ▸ notMem_empty x)⟩
  | cons triple ranges ih =>
    obtain ⟨-, -, hnext, hsorted⟩ := sorted_cons.1 h
    rw [typepRational, mem_denotes_cons]
    by_cases hlow : lowGtHighP triple.low (.closed x) = true
    · rw [if_pos hlow]
      rw [lowGtHighP_closed] at hlow
      refine ⟨(fun h => nomatch h),
        fun hmem => hmem.elim (fun hy => absurd hlow hy.2.1) fun hmem => ?_⟩
      exact absurd hmem (not_mem_of_before fun next hn => h.low_subset next hn hlow)
    rw [if_neg hlow]
    rw [lowGtHighP_closed] at hlow
    by_cases hhigh : lowGtHighP (.closed x) triple.high = true
    · rw [if_pos hhigh, ih hsorted]
      rw [closed_lowGtHighP] at hhigh
      exact (or_iff_right fun hy => hhigh hy.2.2).symm
    rw [if_neg hhigh]
    rw [closed_lowGtHighP, not_not] at hhigh
    refine ⟨fun hrun => .inl ⟨hrun, hlow, hhigh⟩,
      fun hmem => hmem.elim (fun hy => hy.1) fun hmem => ?_⟩
    exact absurd hmem (not_mem_of_before fun next hn => hnext next hn hhigh)

theorem typepInteger_spec (hvalid : ∀ triple ∈ ranges, Valid triple)
    (hrun : ∀ triple ∈ ranges, triple.run = rangeIntegerRun) (x : ℚ) :
    typepInteger x ranges = some (typepRational x rangeIntegerRun ranges) := by
  induction ranges with
  | nil => rfl
  | cons triple ranges ih =>
    obtain ⟨run, low, high⟩ := triple
    have hv := hvalid _ mem_cons_self
    have hr : run = rangeIntegerRun := hrun _ mem_cons_self
    subst hr
    have hih := ih (fun t ht => hvalid t (mem_cons_of_mem _ ht)) fun t ht =>
      hrun t (mem_cons_of_mem _ ht)
    rcases hv.low.integer rfl with hlow | ⟨m, hlow⟩
      <;> rcases hv.high.integer rfl with hhigh | ⟨n, hhigh⟩ <;>
      simp only at hlow hhigh <;> subst hlow <;> subst hhigh
    · rfl
    · simp only [typepInteger, typepRational, lowGtHighP, decide_eq_true_eq, hih]
      split <;> rfl
    · simp only [typepInteger, typepRational, lowGtHighP, decide_eq_true_eq]
      split <;> rfl
    · simp only [typepInteger, typepRational, lowGtHighP, decide_eq_true_eq, hih]
      split
      · rfl
      · split <;> rfl

/-! ## A triple whose run is not collapsed -/

/-- The triple is between the bounds of another. -/
def Within (triple triple2 : Triple) : Prop :=
  lowLeLowP triple2.low triple.low = true ∧ highGeHighP triple2.high triple.high = true

/-- Of the triples that the other is not behind, the one that it is within decides, by the runs. -/
theorem subtypeTriple_within (hsorted : Sorted ranges2) (hmem : triple2 ∈ ranges2)
    (hw : Within triple triple2) (hne : ¬ triple.high.upto ⊆ triple.low.before) :
    ∃ left, subtypeTriple triple ranges2 =
      some (if logtest triple.run triple2.run = true ∧ triple.run ≤ triple2.run then some left
        else none) := by
  induction ranges2 with
  | nil => exact absurd hmem not_mem_nil
  | cons next ranges2 ih =>
    obtain ⟨-, -, hnext, hrest⟩ := sorted_cons.1 hsorted
    obtain ⟨hlow, hhigh⟩ := hw
    rw [lowLeLowP_iff] at hlow
    rw [highGeHighP_iff] at hhigh
    have hbelow := subset_of_not_subset triple.low.isLowerSet_before triple.high.isLowerSet_upto hne
    rw [subtypeTriple]
    rcases mem_cons.1 hmem with rfl | hmem
    · rw [if_neg fun h => hne ((lowGtHighP_iff.1 h).trans hlow),
        if_neg fun h => hne (hhigh.trans (lowGtHighP_iff.1 h))]
      by_cases hrun : logtest triple.run triple2.run = true ∧ triple.run ≤ triple2.run
      · rw [if_neg (not_not.2 hrun), if_neg (not_not.2 (lowLeLowP_iff.2 hlow)),
          if_pos (highGeHighP_iff.2 hhigh)]
        exact ⟨triple2 :: ranges2, by rw [if_pos hrun]⟩
      · rw [if_pos hrun]
        exact ⟨[], by rw [if_neg hrun]⟩
    · have hskip := (hnext triple2 hmem).trans hlow
      rw [if_neg fun h => ?_, if_pos (lowGtHighP_iff.2 hskip)]
      · exact ih hrest hmem
      · have hlow2 := subset_of_not_subset next.low.isLowerSet_before next.high.isLowerSet_upto (hsorted.nonempty next mem_cons_self)
        exact hne ((lowGtHighP_iff.1 h).trans (hlow2.trans hskip))

/-- A range all of whose numbers are in the vector is within one of its triples. -/
theorem exists_within {x : ℚ} (h2 : Spread ranges2) (hx : x ∈ between triple.low triple.high)
    (hsub : between triple.low triple.high ⊆ denotes ranges2) :
    ∃ triple2 ∈ ranges2, Within triple triple2 ∧ triple2.run.Has x := by
  induction ranges2 with
  | nil => exact absurd (hsub hx) (denotes_nil ▸ notMem_empty x)
  | cons triple2 ranges2 ih =>
    obtain ⟨-, -, hbehind, hapart, hspread⟩ := spread_cons.1 h2
    by_cases hskip : triple2.high.upto ⊆ triple.low.before
    · obtain ⟨next, hnext, hw⟩ := ih hspread fun y hy =>
        (mem_denotes_cons.1 (hsub hy)).resolve_left fun h => hy.1 (hskip h.2.2)
      exact ⟨next, mem_cons_of_mem _ hnext, hw⟩
    obtain ⟨u, hu, hulow⟩ := not_subset.1 hskip
    have hlow : triple2.low.before ⊆ triple.low.before := by
      intro z hz
      by_contra hzlow
      by_cases hzhigh : z ∈ triple.high.upto
      · exact not_mem_of_low h2 hz (hsub ⟨hzlow, hzhigh⟩)
      · have hxz := lt_of_mem triple.high.isLowerSet_upto hx.2 hzhigh
        exact not_mem_of_low h2 (triple2.low.isLowerSet_before hxz.le hz) (hsub hx)
    have hhigh : triple.high.upto ⊆ triple2.high.upto := by
      intro z hz
      by_contra hzhigh
      have above {g : ℚ} (hg : g ∉ triple2.high.upto) : g ∉ triple.low.before := fun h =>
        hulow (triple.low.isLowerSet_before (lt_of_mem triple2.high.isLowerSet_upto hu hg).le h)
      have hzmem := hsub ⟨above hzhigh, hz⟩
      cases ranges2 with
      | nil => exact (mem_denotes_cons.1 hzmem).elim (fun h => hzhigh h.2.2) (denotes_nil ▸ notMem_empty z)
      | cons next ranges2 =>
        -- the vector leaves a number out before its next triple
        obtain ⟨g, -, hg2, hgnext⟩ := hapart next rfl
        have hout {y : ℚ} (hy : y ∉ triple2.high.upto) (hynext : y ∈ next.low.before) :
            y ∉ denotes (triple2 :: next :: ranges2) := fun h =>
          (mem_denotes_cons.1 h).elim (fun h => hy h.2.2) (not_mem_of_low hspread hynext)
        by_cases hg : g ∈ triple.high.upto
        · exact hout hg2 hgnext (hsub ⟨above hg2, hg⟩)
        · have hzg := lt_of_mem triple.high.isLowerSet_upto hz hg
          exact hout hzhigh (next.low.isLowerSet_before hzg.le hgnext) hzmem
    refine ⟨triple2, mem_cons_self, ⟨lowLeLowP_iff.2 hlow, highGeHighP_iff.2 hhigh⟩, ?_⟩
    refine ((mem_denotes_cons.1 (hsub hx)).resolve_right (not_mem_of_before fun next hnext => ?_)).1
    exact hbehind next hnext (hhigh hx.2)

theorem run_eq_of_has {r s : Run} (hr : r ≠ rangeRationalRun) (hs : s ≠ rangeRationalRun)
    (hry : r.Has y) (hsy : s.Has y) : r = s :=
  run_ext fun _ => ⟨fun h => has_of_kind (kind_eq_of_has hr hry h) hsy,
    fun h => has_of_kind (kind_eq_of_has hs hsy h) hry⟩

/-- The run of a triple that is not collapsed is that of all rationals, of which it has those of one
kind. -/
theorem Single.not_collapsed (h : Single triple) (hc : collapsed triple ≠ triple) :
    triple.run = rangeRationalRun ∧ (collapsed triple).run ≠ rangeRationalRun ∧
      ∀ y ∈ between triple.low triple.high, (collapsed triple).run.Has y := by
  obtain ⟨run, low, high⟩ := triple
  have hrun : run = rangeRationalRun := by
    by_contra hne
    exact hc (by rw [collapsed, collapse_of_ne hne])
  subst hrun
  refine ⟨rfl, fun heq => hc (congrArg (Triple.mk · low high) heq), fun y hy => ?_⟩
  exact ((collapseRationalRun_spec h.1.run h.1.low h.1.high h.nonempty).same y hy).2 has_rational

/-- No triple of the second vector that the one triple of the first is within has just the run that
its run collapses to. -/
def RunsCompare (ranges1 ranges2 : List Triple) : Prop :=
  ∀ triple, ranges1 = [triple] → collapsed triple ≠ triple → ∀ triple2 ∈ ranges2,
    Within triple triple2 → triple2.run ≠ (collapsed triple).run

theorem subtypeRational_single (h : Single triple) (hc : collapsed triple ≠ triple)
    (h2 : Spread ranges2) :
    (∃ answer, subtypeRational [triple] ranges2 = some answer ∧
      (answer = true ↔ denotes [triple] ⊆ denotes ranges2)) ↔ RunsCompare [triple] ranges2 := by
  obtain ⟨hrun, hrun', hhas⟩ := h.not_collapsed hc
  have hone : denotes [triple] = between triple.low triple.high := by
    rw [denotes_cons, denotes_nil, union_empty]
    ext y
    exact ⟨fun hy => hy.2, fun hy => ⟨hrun ▸ has_rational, hy⟩⟩
  constructor
  · rintro ⟨answer, heq, hiff⟩ t ht - triple2 hmem hw hsame
    obtain rfl : triple = t := (List.cons.inj ht).1
    obtain ⟨left, hinner⟩ := subtypeTriple_within h2.sorted hmem hw h.nonempty
    have hfails : ¬ (logtest triple.run triple2.run = true ∧ triple.run ≤ triple2.run) := by
      rw [run_le_iff h.1.run, hsame, hrun]
      revert hrun'
      generalize (collapsed triple).run = r
      revert r
      decide
    rw [if_neg hfails] at hinner
    have hfalse : subtypeRational [triple] ranges2 = some false := by rw [subtypeRational, hinner]
    obtain rfl : false = answer := Option.some.inj (hfalse.symm.trans heq)
    refine Bool.false_ne_true (hiff.2 ?_)
    rw [hone]
    intro y hy
    refine ⟨triple2, hmem, hsame ▸ hhas y hy, fun h => hy.1 (lowLeLowP_iff.1 hw.1 h),
      highGeHighP_iff.1 hw.2 hy.2⟩
  intro hcompare
  rw [hone]
  by_cases hsub : between triple.low triple.high ⊆ denotes ranges2
  · obtain ⟨x, -, hx⟩ := h.2
    obtain ⟨triple2, hmem, hw, hhasx⟩ := exists_within h2 hx hsub
    obtain ⟨left, hinner⟩ := subtypeTriple_within h2.sorted hmem hw h.nonempty
    have hrun2 : triple2.run = rangeRationalRun := by
      by_contra hne
      exact hcompare triple rfl hc triple2 hmem hw (run_eq_of_has hne hrun' hhasx (hhas x hx))
    have hsucceeds : logtest triple.run triple2.run = true ∧ triple.run ≤ triple2.run := by
      rw [hrun, hrun2]
      decide
    rw [if_pos hsucceeds] at hinner
    refine ⟨true, ?_, iff_of_true rfl hsub⟩
    rw [subtypeRational, hinner]
    rfl
  · have hshows : Shows triple ranges2 := fun _ => .inr (by
      obtain ⟨y, hy, hnot⟩ := not_subset.1 hsub
      exact ⟨y, ⟨hrun ▸ has_rational, hy⟩, hnot⟩)
    rcases subtypeTriple_spec h.1 h.nonempty h2 hshows with ⟨heq, -⟩ | ⟨left, -, hall, -⟩
    · exact ⟨false, by rw [subtypeRational, heq], iff_of_false Bool.false_ne_true hsub⟩
    · exact absurd (fun y hy => hall ⟨hrun ▸ has_rational, hy⟩) hsub

/-- The decisions are exact, but for a triple whose run is not collapsed next to one of the run that
it collapses to. -/
theorem rationalDecisions_exact_iff (h1 : Obtained Single ranges1) (h2 : Obtained Single ranges2) :
    ((∃ answer, subtypeRational ranges1 ranges2 = some answer ∧
      (answer = true ↔ denotes ranges1 ⊆ denotes ranges2)) ∧
      (∀ x : ℚ, typepRational x (kind x) ranges1 = true ↔ x ∈ denotes ranges1) ∧
      ((∀ triple ∈ ranges1, triple.run = rangeIntegerRun) → ∀ x : ℚ, x.isInt = true →
        typepInteger x ranges1 = some (typepRational x (kind x) ranges1))) ↔
        RunsCompare ranges1 ranges2 := by
  have hsorted := h1.input.sorted
  have hmembers := typepRational_spec hsorted
  have hintegers (hrun : ∀ triple ∈ ranges1, triple.run = rangeIntegerRun) (x : ℚ)
    (hx : x.isInt = true) :
      typepInteger x ranges1 = some (typepRational x (kind x) ranges1) := by
    rw [kind_of_isInt hx]
    exact typepInteger_spec hsorted.valid hrun x
  rw [and_iff_left ⟨hmembers, hintegers⟩]
  rcases h1.form_or with hform | ⟨triple, rfl, hsingle, hc⟩
  · refine iff_of_true (subtypeRational_spec hform h2.spread) ?_
    rintro triple rfl hc
    exact absurd (hform.good triple mem_cons_self).collapsed_eq hc
  · exact subtypeRational_single hsingle hc h2.spread

/-- The integers from 0 to 5 and the ratios between 1/3 and 3/2, as their union is stored. -/
def mix : List Triple :=
  [⟨rangeIntegerRun, .closed (0 : ℤ), .closed (0 : ℤ)⟩,
    ⟨rangeRationalRun, .opened (1 / 3), .opened (3 / 2)⟩,
    ⟨rangeIntegerRun, .closed (2 : ℤ), .closed (5 : ℤ)⟩]

theorem obtained_mix : Obtained Single mix := by
  have hunion : unionRational [⟨rangeIntegerRun, .closed (0 : ℤ), .closed (5 : ℤ)⟩]
      [⟨rangeRatioRun, .opened (1 / 3), .opened (3 / 2)⟩] = some (mix, rangeRationalRun) := by
        decide +kernel
  exact .union (.single _ single_integers) (.single _ single_ratios) hunion

/-- The range between two bounds as `weaken-numeric-union` makes it, with the run of all rationals.
-/
def weakened (low high : ℚ) : Triple := ⟨rangeRationalRun, .opened low, .opened high⟩

theorem single_weakened {low high : ℚ} (h : low < high) : Single (weakened low high) := by
  obtain ⟨y, hlow, hhigh⟩ := exists_between h
  exact ⟨⟨validFor_rational _, validFor_rational _, (by decide : rangeRationalRun ≠ 0)⟩,
    y, has_rational,
    fun h => absurd (Bound.mem_before_opened.1 h) (not_le.2 hlow), Bound.mem_upto_opened.2 hhigh⟩

theorem rationalDecisions_exact_iff_mix :
    ∃ answer, subtypeRational [weakened (1 / 3) 1] mix = some answer ∧
      (answer = true ↔ denotes [weakened (1 / 3) 1] ⊆ denotes mix) := by
  refine ((rationalDecisions_exact_iff (.single _ (single_weakened (by norm_num)))
    obtained_mix).2 ?_).1
  rintro triple heq - triple2 hmem ⟨hlow, hhigh⟩
  obtain rfl : weakened (1 / 3) 1 = triple := (List.cons.inj heq).1
  simp only [mix, mem_cons, not_mem_nil, or_false] at hmem
  rcases hmem with rfl | rfl | rfl
  · exact absurd hhigh (by decide +kernel)
  · decide +kernel
  · exact absurd hlow (by decide +kernel)

/-- The ratios between 0 and 1 are no subtype of themselves, when the first vector was made by
`weaken-numeric-union`. -/
theorem not_rationalDecisions_exact :
    Obtained Single [weakened 0 1] ∧ Obtained Single [⟨rangeRatioRun, .opened 0, .opened 1⟩] ∧
      subtypeRational [weakened 0 1] [⟨rangeRatioRun, .opened 0, .opened 1⟩] = some false ∧
      denotes [weakened 0 1] ⊆ denotes [⟨rangeRatioRun, .opened 0, .opened 1⟩] ∧
      ¬ ∀ ranges1 ranges2 : List Triple, Obtained Single ranges1 → Obtained Single ranges2 →
        ∃ answer, subtypeRational ranges1 ranges2 = some answer ∧
          (answer = true ↔ denotes ranges1 ⊆ denotes ranges2) := by
  have hsingle := single_weakened zero_lt_one
  have hratios : Single ⟨rangeRatioRun, .opened 0, .opened 1⟩ := by
    refine ⟨valid_ratio_opened _ _, 1 / 2, has_ratio.2 ?_,
      fun h => absurd (Bound.mem_before_opened.1 h) (by norm_num),
      Bound.mem_upto_opened.2 (by norm_num)⟩
    exact not_isInt_of_between (n := 0) (by norm_num) (by norm_num)
  have hcollapse : collapsed (weakened 0 1) = ⟨rangeRatioRun, .opened 0, .opened 1⟩ := by
    decide +kernel
  obtain ⟨-, -, hhas⟩ := hsingle.not_collapsed (by rw [hcollapse]; decide +kernel)
  have hfalse : subtypeRational [weakened 0 1] [⟨rangeRatioRun, .opened 0, .opened 1⟩] =
      some false := by decide +kernel
  have hsub : denotes [weakened 0 1] ⊆ denotes [⟨rangeRatioRun, .opened 0, .opened 1⟩] := by
    rw [denotes_cons, denotes_cons, denotes_nil, union_empty, union_empty]
    rw [hcollapse] at hhas
    exact fun y hy => ⟨hhas y hy.2, hy.2⟩
  refine ⟨.single _ hsingle, .single _ hratios, hfalse, hsub, fun h => ?_⟩
  obtain ⟨answer, hanswer, hiff⟩ := h _ _ (.single _ hsingle) (.single _ hratios)
  obtain rfl : false = answer := Option.some.inj (hfalse.symm.trans hanswer)
  exact Bool.false_ne_true (hiff.2 hsub)

end Sbcl.RationalRange
