import Sbcl.Types.StoreRangeCorrect

/-!
# The union of rational ranges

* `Form` : the form of a vector, which is a result read in the other direction;
* `UnionHolds.ready` : the ranges of two vectors in the order of their low bounds can be stored one
  after the other;
* `unionRational_spec` : the union has the numbers of both vectors;
* `Sorted`, `store_after` : what the operations that store one range after the other need.
-/

namespace Sbcl.RationalRange

open List Set

/-- The form of a vector. -/
structure Form (ranges : List Triple) : Prop where
  good : ∀ triple ∈ ranges, Good triple
  apart : ranges.IsChain Apart

section Form

variable {triple : Triple} {ranges : List Triple} {y : ℚ}

theorem form_reverse : Form ranges.reverse ↔ Canonical ranges := by
  refine ⟨fun ⟨hgood, hapart⟩ => ⟨fun t ht => hgood t (mem_reverse.2 ht), ?_⟩,
    fun ⟨hgood, hapart⟩ => ⟨fun t ht => hgood t (mem_reverse.1 ht), ?_⟩⟩
  · exact isChain_reverse.1 hapart
  · exact isChain_reverse.2 hapart

theorem form_cons : Form (triple :: ranges) ↔ Good triple ∧
    (∀ next ∈ ranges.head?, Apart triple next) ∧ Form ranges := by
  constructor
  · rintro ⟨hgood, hapart⟩
    obtain ⟨hhead, htail⟩ := isChain_cons.1 hapart
    exact ⟨hgood _ mem_cons_self, hhead, fun t ht => hgood t (mem_cons_of_mem _ ht), htail⟩
  rintro ⟨hgood, hhead, hform⟩
  refine ⟨fun t ht => ?_, isChain_cons.2 ⟨hhead, hform.apart⟩⟩
  rcases mem_cons.1 ht with rfl | ht
  · exact hgood
  · exact hform.good t ht

theorem Form.upto_subset (h : Form (triple :: ranges)) : ∀ next ∈ ranges,
    triple.high.upto ⊆ next.low.before := by
  induction ranges generalizing triple with
  | nil => exact fun _ ht => absurd ht not_mem_nil
  | cons next ranges ih =>
    obtain ⟨-, hapart, hform⟩ := form_cons.1 h
    have hsub := (hapart next rfl).upto_subset
    intro t ht
    rcases mem_cons.1 ht with rfl | ht
    · exact hsub
    · exact hsub.trans ((hform.good next mem_cons_self).before_subset.trans (ih hform t ht))

theorem Form.low_subset (h : Form (triple :: ranges)) : ∀ next ∈ ranges,
    triple.low.before ⊆ next.low.before :=
  fun next hnext => (h.good triple mem_cons_self).before_subset.trans (h.upto_subset next hnext)

theorem denotes_nil : denotes [] = ∅ := by simp [denotes]

theorem denotes_cons : denotes (triple :: ranges) = triple.denotes ∪ denotes ranges :=
  Set.ext fun _ => mem_denotes_cons

theorem denotes_reverse : denotes ranges.reverse = denotes ranges := by simp [denotes]

end Form

section Collapse

variable {run : Run} {low high : Bound} {triple : Triple} {acc : Result}

theorem collapse_of_ne (h : run ≠ rangeRationalRun) : collapseRationalRun run low high = run := by
  unfold collapseRationalRun
  split
  · rw [if_pos h]
  · rfl

theorem collapse_collapse : collapseRationalRun (collapseRationalRun run low high) low high =
    collapseRationalRun run low high := by
  by_cases h : collapseRationalRun run low high = rangeRationalRun
  · by_cases hrun : run = rangeRationalRun
    · rw [hrun] at h ⊢
      rw [h, h]
    · rw [collapse_of_ne hrun] at h
      exact absurd h hrun
  · exact collapse_of_ne h

theorem Good.collapsed_eq (h : Good triple) : collapsed triple = triple := by
  obtain ⟨-, hsame⟩ := collapseRationalRun_spec h.run h.low h.high h.nonempty
  have hrun : collapseRationalRun triple.run triple.low triple.high = triple.run := by
    refine run_ext fun y => ⟨fun hy => ?_, fun hy => ?_⟩
    · by_cases hq : triple.run = rangeRationalRun
      · rw [hq]
        exact has_rational
      · rwa [collapse_of_ne hq] at hy
    · obtain ⟨z, hz, hbetween⟩ := h.present y hy
      exact has_of_kind hz.symm ((hsame z hbetween).2 (has_of_kind hz hy))
  unfold collapsed
  rw [hrun]

theorem Good.valid (h : Good triple) : Valid triple := ⟨h.low, h.high, h.run⟩

theorem store_collapsed : store (collapsed triple) acc = store triple acc := by
  unfold store storeRationalRange collapsed
  simp only [collapse_collapse]

end Collapse

/-! ## Union -/

section Union

variable {last triple : Triple} {prev1 prev2 : Option Triple} {ranges1 ranges2 : List Triple}
    {acc : Result} {s : Set ℚ}

/-- A number before a range or in it. -/
def Reached (prev : Option Triple) (y : ℚ) : Prop :=
  ∃ triple, prev = some triple ∧ (y ∈ triple.low.before ∨ y ∈ triple.denotes)

/-- Between two stores: the last ranges that were stored of the two vectors, and what is left of the
vectors. -/
structure UnionHolds (prev1 : Option Triple) (ranges1 : List Triple) (prev2 : Option Triple)
    (ranges2 : List Triple) (acc : Result)
    (s : Set ℚ) : Prop where
  holds : Holds acc s
  form1 : Form (prev1.toList ++ ranges1)
  form2 : Form (prev2.toList ++ ranges2)
  stored1 : ∀ triple, prev1 = some triple → triple.denotes ⊆ s
  stored2 : ∀ triple, prev2 = some triple → triple.denotes ⊆ s
  reached : ∀ y ∈ s, Reached prev1 y ∨ Reached prev2 y
  low1 : ∀ triple, prev1 = some triple → ∀ next ∈ ranges2, triple.low.before ⊆ next.low.before
  low2 : ∀ triple, prev2 = some triple → ∀ next ∈ ranges1, triple.low.before ⊆ next.low.before

theorem UnionHolds.symm (h : UnionHolds prev1 ranges1 prev2 ranges2 acc s) :
    UnionHolds prev2 ranges2 prev1 ranges1 acc s :=
  ⟨h.holds, h.form2, h.form1, h.stored2, h.stored1,
    fun y hy => (h.reached y hy).symm, h.low2, h.low1⟩

variable {y : ℚ}

theorem kind_eq_of_not_has {run : Run} (hzero : run ≠ 0) {z : ℚ} (hy : ¬ run.Has y)
    (hz : ¬ run.Has z) : kind y = kind z := by
  by_cases hint : y.isInt = true <;> by_cases hint' : z.isInt = true
  · rw [kind_of_isInt hint, kind_of_isInt hint']
  · have hr : run = rangeIntegerRun := by_contra fun h => hz (has_of_ratio h hzero hint')
    exact absurd (hr ▸ has_integer.2 hint) hy
  · have hr : run = rangeIntegerRun := by_contra fun h => hy (has_of_ratio h hzero hint)
    exact absurd (hr ▸ has_integer.2 hint') hz
  · rw [kind_of_ratio hint, kind_of_ratio hint']

/-- What is between the last range of a result and the one before it, where both come from one
range. -/
structure Gap (range prev : Triple) (rest : List Triple) (last : Triple) : Prop where
  ne : last.run ≠ rangeRationalRun
  same : ∀ y, last.run.Has y → y ∈ last.low.before → y ∈ prev.high.upto
  other : ∀ y, ¬ last.run.Has y → prev.run.Has y ∧ ¬ range.run.Has y
  start : ∃ y, range.run.Has y ∧ y ∉ range.low.before ∧ y ∈ denotes (prev :: rest)

variable {prev : Triple} {rest : List Triple}

theorem Canonical.upto (hc : Canonical (prev :: rest)) (hy : y ∈ denotes (prev :: rest)) :
    y ∈ prev.high.upto := by
  rcases mem_denotes_cons.1 hy with h | h
  · exact h.2.2
  · exact (hc.good prev mem_cons_self).before_subset (hc.before h)

variable {range : Triple}

theorem mem_of_range (hgood : Good last)
    (hmem : ∀ y ∈ range.denotes, y ∈ denotes (last :: rest))
    (hlast : ∀ y ∈ last.denotes, y ∈ range.denotes) (hy : range.run.Has y)
    (hlow : y ∉ range.low.before) (hbefore : y ∈ last.low.before) : y ∈ denotes rest := by
  obtain ⟨w, hw⟩ := hgood.exists
  have hyw := lt_of_mem last.low.isLowerSet_before hbefore hw.2.1
  have hmem' := hmem y ⟨hy, hlow, range.high.isLowerSet_upto hyw.le (hlast w hw).2.2⟩
  exact (mem_denotes_cons.1 hmem').resolve_left fun h => h.2.1 hbefore

theorem start_of_range (hgood : Good last) (hrange : Good range)
    (hmem : ∀ y ∈ range.denotes, y ∈ denotes (last :: rest))
    (hlast : ∀ y ∈ last.denotes, y ∈ range.denotes)
    (hsplit : ¬ last.low.before ⊆ range.low.before) : ∃ y, range.run.Has y ∧ y ∉ range.low.before ∧
      y ∈ denotes rest := by
  obtain ⟨y, hy, hlow, hbefore⟩ :=
    exists_from hrange.low hrange.run last.low.isLowerSet_before hsplit
  exact ⟨y, hy, hlow, mem_of_range hgood hmem hlast hy hlow hbefore⟩

theorem gap_of_range (hc : Canonical (last :: prev :: rest)) (hrange : Good range)
    (hmem : ∀ y ∈ range.denotes, y ∈ denotes (last :: prev :: rest))
    (hlast : ∀ y ∈ last.denotes, y ∈ range.denotes)
    (hsplit : ¬ last.low.before ⊆ range.low.before) : Gap range prev rest last := by
  obtain ⟨hgood, hapart, hc'⟩ := canonical_cons.1 hc
  have hinner (y : ℚ) := @mem_of_range last y (prev :: rest) range hgood hmem hlast
  have hrun (y : ℚ) (hy : last.run.Has y) : range.run.Has y := by
    obtain ⟨z, hz, hmem'⟩ := hgood.exists_mem hy
    exact has_of_kind hz.symm (hlast z hmem').1
  obtain ⟨start, hstart, hstartlow, hstartmem⟩ := start_of_range hgood hrange hmem hlast hsplit
  have hsame (y : ℚ) (hy : last.run.Has y) (hbefore : y ∈ last.low.before) :
      y ∈ prev.high.upto := by
    by_cases hlow : y ∈ range.low.before
    · have hlt := lt_of_mem range.low.isLowerSet_before hlow hstartlow
      exact prev.high.isLowerSet_upto hlt.le (hc'.upto hstartmem)
    · exact hc'.upto (hinner y (hrun y hy) hlow hbefore)
  obtain ⟨g, hg, hgprev, hglast⟩ := hapart prev rfl
  have hgnot : ¬ last.run.Has g := fun h => hgprev (hsame g h hglast)
  have hgrange : ¬ range.run.Has g := by
    intro h
    have hlt := lt_of_mem prev.high.isLowerSet_upto (hc'.upto hstartmem) hgprev
    have hglow : g ∉ range.low.before := fun h => hstartlow (range.low.isLowerSet_before hlt.le h)
    exact hgprev (hc'.upto (hinner g h hglow hglast))
  refine ⟨fun hq => hgnot (hq ▸ has_rational), hsame, fun y hy => ?_, start, hstart,
    hstartlow, hstartmem⟩
  have hkind := kind_eq_of_not_has hgood.run hgnot hy
  exact ⟨has_of_kind hkind.symm ((has_or.1 hg).resolve_right hgnot),
    fun h => hgrange (has_of_kind hkind h)⟩

/-- The range that the last one of the other vector came from goes on where the result has been
split. -/
theorem filled_of_reached (hc : Canonical (last :: prev :: rest)) (hgap : Gap range prev rest last)
    (hafter : ∀ y ∈ denotes (last :: prev :: rest), y ∉ triple.low.before → y ∈ range.denotes)
    (hle : triple.low.before ⊆ last.low.before)
    (hother : ∀ y ∈ denotes (last :: prev :: rest), Reached prev1 y ∨ y ∈ range.low.before ∨
      y ∈ range.denotes)
    (hprev1 : ∀ own, prev1 = some own → Good own ∧ Apart own triple) : Filled prev last triple := by
  obtain ⟨hgood, hapart, hc'⟩ := canonical_cons.1 hc
  have hprev := hc'.good prev mem_cons_self
  obtain ⟨h, hh⟩ : ∃ y, ¬ last.run.Has y := by
    by_contra hnot
    push Not at hnot
    exact hgap.ne (rational_of_has hnot)
  -- the other kind of numbers of the range before the last one is not of the range
  have hstored (y : ℚ) (hy : y ∈ prev.denotes) : y ∈ denotes (last :: prev :: rest) :=
    mem_denotes_cons.2 (.inr (mem_denotes_cons.2 (.inl hy)))
  have hbefore (y : ℚ) (hy : y ∈ prev.denotes) (hnot : ¬ last.run.Has y) :
      y ∈ triple.low.before := by
    by_contra hlow
    exact (hgap.other y hnot).2 (hafter y (hstored y hy) hlow).1
  obtain ⟨p, hp, hpmem⟩ := hprev.exists_mem (hgap.other h hh).1
  have hpnot : ¬ last.run.Has p := fun hl => hh (has_of_kind hp.symm hl)
  have hplow := hbefore p hpmem hpnot
  have hlow : prev.low.before ⊆ triple.low.before :=
    subset_of_notMem prev.low.isLowerSet_before triple.low.isLowerSet_before hpmem.2.1 hplow
  refine ⟨hlow, hgap.same, fun y hy hup => ?_, ?_⟩
  · by_contra hylow
    exact hylow (hbefore y ⟨(hgap.other y hy).1, fun h => hylow (hlow h), hup⟩ hy)
  by_cases hq : prev.run = rangeRationalRun
  · exact .inl hq
  right
  -- the range before the last one comes from the vector of the new one
  obtain ⟨start, hstart, hstartlow, hstartmem⟩ := hgap.start
  have hstartprev : start ∈ prev.low.before := by
    refine hc'.before ((mem_denotes_cons.1 hstartmem).resolve_left fun hmem => ?_)
    have hkind := kind_eq_of_has hq (hgap.other h hh).1 hmem.1
    exact (hgap.other h hh).2 (has_of_kind hkind.symm hstart)
  have hnotrange (y : ℚ) (hy : y ∈ prev.denotes) : ¬ range.run.Has y := fun hr =>
    (hgap.other h hh).2 (has_of_kind (kind_eq_of_has hq (hgap.other h hh).1 hy.1).symm hr)
  have hown (y : ℚ) (hy : y ∈ prev.denotes) : Reached prev1 y := by
    rcases hother y (hstored y hy) with hr | hr | hr
    · exact hr
    · have hlt := lt_of_mem prev.low.isLowerSet_before hstartprev hy.2.1
      exact absurd (range.low.isLowerSet_before hlt.le hr) hstartlow
    · exact absurd hr.1 (hnotrange y hy)
  obtain ⟨own, hprev1eq, -⟩ := hown p hpmem
  obtain ⟨howngood, u, hu, huown, hulow⟩ := hprev1 own hprev1eq
  have hupto (y : ℚ) (hy : y ∈ prev.denotes) : y ∈ own.high.upto := by
    obtain ⟨own', heq, hr⟩ := hown y hy
    obtain rfl : own = own' := Option.some.inj (hprev1eq.symm.trans heq)
    exact hr.elim (fun h => howngood.before_subset h) fun h => h.2.2
  have huprev : u ∉ prev.high.upto := by
    intro hmem
    obtain ⟨z, hz, hzu, hzup⟩ := exists_upto hprev.high hprev.run (isLowerSet_Iio u) fun h =>
      lt_irrefl u (h hmem)
    have hpu := lt_of_mem own.high.isLowerSet_upto (hupto p hpmem) huown
    have hzlow : z ∉ prev.low.before :=
      fun h => hpmem.2.1 (prev.low.isLowerSet_before (hpu.le.trans (not_lt.1 hzu)) h)
    exact huown (own.high.isLowerSet_upto (not_lt.1 hzu) (hupto z ⟨hz, hzlow, hzup⟩))
  refine ⟨u, has_or.2 ?_, huprev, hulow⟩
  rcases has_or.1 hu with hu | hu
  · exact .inl (hgap.other u fun hl => huprev (hgap.same u hl (hle hulow))).1
  · exact .inr hu

theorem UnionHolds.ready (h : UnionHolds prev1 (triple :: ranges1) prev2 ranges2 acc s) :
    ReadyFor acc.1 triple := by
  have hc := h.holds.canonical
  have hmem := h.holds.mem
  revert hc hmem
  cases acc.1 with
  | nil => exact fun _ _ => trivial
  | cons last rest =>
    intro hc hmem
    by_cases hle : last.low.before ⊆ triple.low.before
    · exact .inl hle
    right
    have hge := subset_of_not_subset triple.low.isLowerSet_before last.low.isLowerSet_before hle
    have hprev1 (own : Triple) (heq : prev1 = some own) : Good own ∧ Apart own triple := by
      subst heq
      obtain ⟨hgood, hapart, -⟩ := form_cons.1 h.form1
      exact ⟨hgood, hapart triple rfl⟩
    have hafter (y : ℚ) (hy : y ∈ s) (hlow : y ∉ triple.low.before) : ∃ range, prev2 = some range ∧
        y ∈ range.denotes := by
      rcases h.reached y hy with ⟨own, heq, hr⟩ | ⟨range, heq, hr⟩
      · obtain ⟨hgood, hapart⟩ := hprev1 own heq
        exact absurd
          (hapart.upto_subset (hr.elim (fun h => hgood.before_subset h) fun h => h.2.2)) hlow
      · exact ⟨range, heq,
          hr.resolve_left fun hr => hlow (h.low2 range heq triple mem_cons_self hr)⟩
    obtain ⟨hgood, -, -⟩ := canonical_cons.1 hc
    have hlast (y : ℚ) (hy : y ∈ last.denotes) : ∃ range, prev2 = some range ∧ y ∈ range.denotes :=
      hafter y ((hmem y).1 (mem_denotes_cons.2 (.inl hy))) fun hlow => hy.2.1 (hge hlow)
    obtain ⟨w, hw⟩ := hgood.exists
    obtain ⟨range, heq, -⟩ := hlast w hw
    have hrange : Good range := h.form2.good range (by rw [heq]; exact mem_cons_self)
    have hof {y : ℚ} (hex : ∃ range, prev2 = some range ∧ y ∈ range.denotes) :
        y ∈ range.denotes := by
      obtain ⟨range', heq', hy⟩ := hex
      obtain rfl : range = range' := Option.some.inj (heq.symm.trans heq')
      exact hy
    have hstored (y : ℚ) (hy : y ∈ range.denotes) := (hmem y).2 (h.stored2 range heq hy)
    have hsplit : ¬ last.low.before ⊆ range.low.before := fun hsub =>
      hle (hsub.trans (h.low2 range heq triple mem_cons_self))
    cases rest with
    | nil =>
      obtain ⟨y, -, -, t, ht, -⟩ :=
        start_of_range hgood hrange hstored (fun y hy => hof (hlast y hy)) hsplit
      exact absurd ht not_mem_nil
    | cons prev rest =>
      have hgap := gap_of_range hc hrange hstored (fun y hy => hof (hlast y hy)) hsplit
      refine ⟨hgap.ne, prev, rest, rfl,
        filled_of_reached hc hgap (fun y hy hlow => hof (hafter y ((hmem y).1 hy) hlow)) hge
        (fun y hy => (h.reached y ((hmem y).1 hy)).imp_right fun hr => ?_) hprev1⟩
      obtain ⟨range', heq', hr⟩ := hr
      obtain rfl : range = range' := Option.some.inj (heq.symm.trans heq')
      exact hr

theorem UnionHolds.store (h : UnionHolds prev1 (triple :: ranges1) prev2 ranges2 acc s)
    (hle : ∀ next ∈ ranges2, triple.low.before ⊆ next.low.before) :
    ∃ acc', RationalRange.store triple acc = some acc' ∧
      UnionHolds (some triple) ranges1 prev2 ranges2 acc' (s ∪ triple.denotes) := by
  have hform : Form (triple :: ranges1) := by
    have h1 := h.form1
    cases prev1 with
    | none => exact h1
    | some own => exact (form_cons.1 h1).2.2
  obtain ⟨hgood, hapart, hform1⟩ := form_cons.1 hform
  obtain ⟨acc', hstore, hholds⟩ := store_spec h.holds hgood.valid (by
    rw [hgood.collapsed_eq]
    exact h.ready)
  refine ⟨acc', hstore, hholds, hform, h.form2, ?_,
    fun t ht => (h.stored2 t ht).trans subset_union_left, fun y hy => ?_, ?_,
    fun t ht next hnext => h.low2 t ht next (mem_cons_of_mem _ hnext)⟩
  · intro t ht
    obtain rfl : triple = t := Option.some.inj ht
    exact subset_union_right
  · rcases hy with hy | hy
    · rcases h.reached y hy with ⟨own, heq, hr⟩ | hr
      · subst heq
        obtain ⟨howngood, hownapart, -⟩ := form_cons.1 h.form1
        have hup := hr.elim (fun h => howngood.before_subset h) fun h => h.2.2
        exact .inl ⟨triple, rfl, .inl ((hownapart triple rfl).upto_subset hup)⟩
      · exact .inr hr
    · exact .inl ⟨triple, rfl, .inr hy⟩
  · intro t ht next hnext
    obtain rfl : triple = t := Option.some.inj ht
    exact hle next hnext

theorem storeAll_spec (h : UnionHolds prev1 ranges1 prev2 [] acc s) :
    ∃ acc', storeAll ranges1 acc = some acc' ∧ Holds acc' (s ∪ denotes ranges1) := by
  induction ranges1 generalizing prev1 acc s with
  | nil =>
    rw [denotes_nil, union_empty]
    exact ⟨acc, rfl, h.holds⟩
  | cons triple ranges1 ih =>
    obtain ⟨acc1, hstore, h1⟩ := h.store fun _ hnext => absurd hnext not_mem_nil
    obtain ⟨acc', hall, hholds⟩ := ih h1
    rw [union_assoc, ← denotes_cons] at hholds
    exact ⟨acc', by rw [storeAll, foldlM_cons, hstore]; exact hall, hholds⟩

theorem Form.tail {prev : Option Triple} (h : Form (prev.toList ++ ranges1)) : Form ranges1 := by
  cases prev with
  | none => exact h
  | some own => exact (form_cons.1 h).2.2

theorem UnionHolds.low_of_le {triple2 : Triple}
    (h : UnionHolds prev1 (triple :: ranges1) prev2 (triple2 :: ranges2) acc s)
    (hle : triple.low.before ⊆ triple2.low.before) : ∀ next ∈ triple2 :: ranges2,
      triple.low.before ⊆ next.low.before := by
  intro next hnext
  rcases mem_cons.1 hnext with rfl | hnext
  · exact hle
  · exact hle.trans (h.form2.tail.low_subset next hnext)

theorem le_of_not_lowLeLowP {low1 low2 : Bound} (h : ¬ lowLeLowP low1 low2 = true) :
    low2.before ⊆ low1.before :=
  subset_of_not_subset low2.isLowerSet_before low1.isLowerSet_before fun hsub =>
    h (lowLeLowP_iff.2 hsub)

theorem unionLoop_spec (h : UnionHolds prev1 ranges1 prev2 ranges2 acc s) :
    ∃ acc', unionLoop ranges1 ranges2 acc = some acc' ∧
      Holds acc' (s ∪ (denotes ranges1 ∪ denotes ranges2)) := by
  induction ranges1, ranges2, acc using unionLoop.induct generalizing prev1 prev2 s with
  | case1 ranges2 acc =>
    rw [unionLoop, denotes_nil, empty_union]
    exact storeAll_spec h.symm
  | case2 triple1 ranges1 acc =>
    rw [unionLoop, denotes_nil, union_empty]
    exact storeAll_spec h
  | case3 triple1 ranges1 triple2 ranges2 acc hle hnone =>
    obtain ⟨acc1, hstore, -⟩ := h.store (h.low_of_le (lowLeLowP_iff.1 hle))
    exact absurd hnone (by rw [hstore]; exact Option.some_ne_none acc1)
  | case4 triple1 ranges1 triple2 ranges2 acc hle acc' hstore ih =>
    obtain ⟨acc1, hstore', h1⟩ := h.store (h.low_of_le (lowLeLowP_iff.1 hle))
    obtain rfl : acc' = acc1 := Option.some.inj (hstore.symm.trans hstore')
    obtain ⟨acc2, hloop, hholds⟩ := ih h1
    refine ⟨acc2, ?_, ?_⟩
    · rw [unionLoop, if_pos hle, hstore]
      exact hloop
    · rwa [union_assoc, ← union_assoc, ← union_assoc, union_assoc s, ← denotes_cons,
        union_assoc] at hholds
  | case5 triple1 ranges1 triple2 ranges2 acc hle hnone =>
    obtain ⟨acc1, hstore, -⟩ := h.symm.store (h.symm.low_of_le (le_of_not_lowLeLowP hle))
    exact absurd hnone (by rw [hstore]; exact Option.some_ne_none acc1)
  | case6 triple1 ranges1 triple2 ranges2 acc hle acc' hstore ih =>
    obtain ⟨acc1, hstore', h1⟩ := h.symm.store (h.symm.low_of_le (le_of_not_lowLeLowP hle))
    obtain rfl : acc' = acc1 := Option.some.inj (hstore.symm.trans hstore')
    obtain ⟨acc2, hloop, hholds⟩ := ih h1.symm
    refine ⟨acc2, ?_, ?_⟩
    · rw [unionLoop, if_neg hle, hstore]
      exact hloop
    · rwa [union_assoc, union_left_comm triple2.denotes, ← denotes_cons] at hholds

/-- A vector whose runs may have more kinds than its numbers. -/
structure Input (ranges : List Triple) : Prop where
  valid : ∀ triple ∈ ranges, Valid triple
  form : Form (ranges.map collapsed)

theorem storeAll_collapsed : storeAll (ranges1.map collapsed) acc = storeAll ranges1 acc := by
  unfold storeAll
  rw [foldlM_map]
  congr 1
  funext acc triple
  exact store_collapsed

theorem unionLoop_collapsed :
    unionLoop (ranges1.map collapsed)
      (ranges2.map collapsed) acc = unionLoop ranges1 ranges2 acc := by
  induction ranges1, ranges2, acc using unionLoop.induct with
  | case1 ranges2 acc =>
    rw [map_nil, unionLoop, unionLoop]
    exact storeAll_collapsed
  | case2 triple1 ranges1 acc =>
    rw [map_nil, map_cons, unionLoop, unionLoop, ← map_cons]
    exact storeAll_collapsed
  | case3 triple1 ranges1 triple2 ranges2 acc hle hnone =>
    rw [map_cons, map_cons, unionLoop, unionLoop, store_collapsed, hnone]
    simp only [collapsed, hle, if_true]
  | case4 triple1 ranges1 triple2 ranges2 acc hle acc' hstore ih =>
    rw [map_cons, map_cons, unionLoop, unionLoop, store_collapsed, hstore, if_pos hle]
    exact (if_pos hle).trans ih
  | case5 triple1 ranges1 triple2 ranges2 acc hle hnone =>
    rw [map_cons, map_cons, unionLoop, unionLoop, store_collapsed, store_collapsed,
      hnone, if_neg hle]
    exact if_neg hle
  | case6 triple1 ranges1 triple2 ranges2 acc hle acc' hstore ih =>
    rw [map_cons, map_cons, unionLoop, unionLoop, store_collapsed, store_collapsed,
      hstore, if_neg hle]
    exact (if_neg hle).trans ih

/-- The operation returns a vector of the set, with the mask of its runs. -/
def Returns (returned : Option Result) (s : Set ℚ) : Prop :=
  ∃ ranges mask, returned = some (ranges, mask) ∧ Form ranges ∧ mask = maskOf ranges ∧
    denotes ranges = s

theorem maskOf_reverse : maskOf ranges1.reverse = maskOf ranges1 := by
  refine run_ext fun y => ?_
  rw [maskOf_has, maskOf_has]
  simp only [mem_reverse]

theorem Holds.returns {loop : Option Result} {acc' : Result} (h : Holds acc' s)
    (hloop : loop = some acc') : Returns (toVector <$> loop) s := by
  refine ⟨acc'.1.reverse, acc'.2, by rw [hloop]; rfl, ?_, ?_, ?_⟩
  · refine form_reverse.2 h.canonical
  · rw [maskOf_reverse, h.mask]
  · rw [denotes_reverse]
    exact Set.ext h.mem

theorem holds_empty : Holds ([], 0) ∅ := ⟨canonical_nil, rfl, fun y => by rw [denotes_nil]⟩

theorem Input.mem_collapsed (h : Input ranges1) (ht : triple ∈ ranges1) :
    y ∈ (collapsed triple).denotes ↔ y ∈ triple.denotes := by
  have hvalid := h.valid triple ht
  have hgood := h.form.good _ (mem_map_of_mem ht)
  exact and_congr_left fun hy =>
    (collapseRationalRun_spec hvalid.run hvalid.low hvalid.high hgood.nonempty).same y hy

theorem Input.denotes_collapsed (h : Input ranges1) :
    denotes (ranges1.map collapsed) = denotes ranges1 := by
  ext y
  constructor
  · rintro ⟨_, hmap, hy⟩
    obtain ⟨t, ht, rfl⟩ := mem_map.1 hmap
    exact ⟨t, ht, (h.mem_collapsed ht).1 hy⟩
  · rintro ⟨t, ht, hy⟩
    exact ⟨collapsed t, mem_map_of_mem ht, (h.mem_collapsed ht).2 hy⟩

theorem unionRational_spec (h1 : Input ranges1) (h2 : Input ranges2) :
    Returns (unionRational ranges1 ranges2) (denotes ranges1 ∪ denotes ranges2) := by
  have hstart : UnionHolds none (ranges1.map collapsed) none (ranges2.map collapsed) ([], 0) ∅ :=
    ⟨holds_empty, h1.form, h2.form, (fun _ h => nomatch h), (fun _ h => nomatch h),
      fun y hy => absurd hy (notMem_empty y), (fun _ h => nomatch h), fun _ h => nomatch h⟩
  obtain ⟨acc', hloop, hholds⟩ := unionLoop_spec hstart
  rw [unionLoop_collapsed] at hloop
  rw [empty_union, h1.denotes_collapsed, h2.denotes_collapsed] at hholds
  exact hholds.returns hloop

end Union

/-! ## Vectors -/

section Sorted

variable {ranges : List Triple}

/-- The ranges are not empty and one begins after the other. -/
structure Sorted (ranges : List Triple) : Prop where
  valid : ∀ triple ∈ ranges, Valid triple
  nonempty : ∀ triple ∈ ranges, ¬ triple.high.upto ⊆ triple.low.before
  sorted : ranges.Pairwise fun triple next => triple.high.upto ⊆ next.low.before

theorem sorted_cons {triple : Triple} : Sorted (triple :: ranges) ↔ Valid triple ∧
    ¬ triple.high.upto ⊆ triple.low.before ∧
    (∀ next ∈ ranges, triple.high.upto ⊆ next.low.before) ∧ Sorted ranges := by
  constructor
  · rintro ⟨hvalid, hne, hsorted⟩
    obtain ⟨hhead, htail⟩ := pairwise_cons.1 hsorted
    exact ⟨hvalid _ mem_cons_self, hne _ mem_cons_self, hhead,
      fun t ht => hvalid t (mem_cons_of_mem _ ht), fun t ht => hne t (mem_cons_of_mem _ ht), htail⟩
  rintro ⟨hvalid, hne, hhead, hsorted⟩
  refine ⟨fun t ht => ?_, fun t ht => ?_, pairwise_cons.2 ⟨hhead, hsorted.sorted⟩⟩
  · rcases mem_cons.1 ht with rfl | ht
    · exact hvalid
    · exact hsorted.valid t ht
  · rcases mem_cons.1 ht with rfl | ht
    · exact hne
    · exact hsorted.nonempty t ht

theorem Form.pairwise (h : Form ranges) : ranges.Pairwise fun triple next => triple.high.upto ⊆
    next.low.before := by
  induction ranges with
  | nil => exact .nil
  | cons triple ranges ih => exact pairwise_cons.2 ⟨h.upto_subset, ih (form_cons.1 h).2.2⟩

theorem Input.sorted (h : Input ranges) : Sorted ranges where
  valid := h.valid
  nonempty _ ht := (h.form.good _ (mem_map_of_mem ht)).nonempty
  sorted := pairwise_map.1 h.form.pairwise

theorem Form.input (h : Form ranges) : Input ranges where
  valid triple ht := (h.good triple ht).valid
  form := by rwa [map_congr_left fun t ht => (h.good t ht).collapsed_eq, map_id']

theorem Input.single {triple : Triple} (hvalid : Valid triple)
    (hne : ¬ triple.high.upto ⊆ triple.low.before) : Input [triple] where
  valid t ht := by
    obtain rfl := mem_singleton.1 ht
    exact hvalid
  form := form_cons.2 ⟨(collapseRationalRun_spec hvalid.run hvalid.low hvalid.high hne).good,
    (fun _ h => nomatch h), fun _ h => absurd h not_mem_nil, .nil⟩

theorem Holds.readyFor {acc : Result} {s : Set ℚ} {triple : Triple} (h : Holds acc s)
    (hafter : ∀ y ∈ s, y ∈ triple.low.before) : ReadyFor acc.1 triple := by
  have hc := h.canonical
  have hmem := h.mem
  revert hc hmem
  cases acc.1 with
  | nil => exact fun _ _ => trivial
  | cons last rest =>
    intro hc hmem
    obtain ⟨w, hw⟩ := (canonical_cons.1 hc).1.exists
    have hbefore := hafter w ((hmem w).1 (mem_denotes_cons.2 (.inl hw)))
    exact .inl (subset_of_notMem last.low.isLowerSet_before
      triple.low.isLowerSet_before hw.2.1 hbefore)

theorem store_after {acc : Result} {s : Set ℚ} {triple : Triple} (h : Holds acc s)
    (hvalid : Valid triple)
    (hafter : ∀ y ∈ s, y ∈ triple.low.before) : ∃ acc', store triple acc = some acc' ∧
      Holds acc' (s ∪ triple.denotes) :=
  store_spec h hvalid (h.readyFor hafter)

end Sorted

end Sbcl.RationalRange
