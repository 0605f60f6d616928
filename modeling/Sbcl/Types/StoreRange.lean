import Mathlib.Data.List.Chain
import Sbcl.Types.RangeRuns

/-!
# A result that a range is stored to

* `Canonical` : the ranges have numbers of all their runs, and between two of them a number of their
  runs is left out;
* `Ready` : a range begins after the last range of the result, or the range before the last one
  fills up what is between;
* `pushRemainder_spec`, `splitLast_spec` : the pieces of an overlap.
-/

namespace Sbcl.RationalRange

open List

/-- A number of the runs is between the two ranges. -/
def Apart (triple1 triple2 : Triple) : Prop :=
  ∃ y, (triple1.run ||| triple2.run).Has y ∧ y ∉ triple1.high.upto ∧ y ∈ triple2.low.before

/-- The numbers of a vector. -/
def denotes (ranges : List Triple) : Set ℚ := {y | ∃ triple ∈ ranges, y ∈ triple.denotes}

/-- The form of a result. -/
structure Canonical (result : List Triple) : Prop where
  good : ∀ triple ∈ result, Good triple
  apart : result.IsChain fun last prev => Apart prev last

section Basic

variable {triple triple1 triple2 last : Triple} {result rest : List Triple} {y z : ℚ} {s t : Set ℚ}

theorem lt_of_mem (hs : IsLowerSet s) (hz : z ∈ s) (hy : y ∉ s) : z < y :=
  not_le.1 fun h => hy (hs h hz)

theorem subset_of_notMem (hs : IsLowerSet s) (ht : IsLowerSet t) (hy : y ∉ s)
    (hy' : y ∈ t) : s ⊆ t :=
  fun _ hz => ht (lt_of_mem hs hz hy).le hy'

theorem subset_of_not_subset (hs : IsLowerSet s) (ht : IsLowerSet t) (h : ¬ t ⊆ s) : s ⊆ t :=
  (hs.total ht).resolve_right h

theorem not_apart : ¬ Apart triple1 triple2 ↔
    Meets triple1.high triple1.run triple2.low triple2.run := by
  unfold Apart Meets
  push Not
  exact ⟨fun h z hz hb => by_contra fun hu => h z hz hu hb, fun h z hz hu hb => hu (h z hz hb)⟩

theorem Apart.upto_subset (h : Apart triple1 triple2) : triple1.high.upto ⊆ triple2.low.before := by
  obtain ⟨y, -, hy, hbefore⟩ := h
  exact subset_of_notMem triple1.high.isLowerSet_upto triple2.low.isLowerSet_before hy hbefore

theorem exists_has : ∀ {run : Run}, run ≠ 0 → ∃ y : ℚ, run.Has y := by
  intro run h
  obtain ⟨y, -, -, hy⟩ := exists_ratio zero_lt_one
  by_cases hint : run = rangeIntegerRun
  · exact ⟨0, hint ▸ has_integer.2 rfl⟩
  · exact ⟨y, has_of_ratio hint h hy⟩

theorem rational_of_has {run : Run} (h : ∀ y, run.Has y) : run = rangeRationalRun := by
  obtain ⟨y, -, -, hy⟩ := exists_ratio zero_lt_one
  rcases run_cases run with rfl | rfl | rfl | rfl
  · exact absurd (h 0) not_has_zero
  · exact absurd (has_integer.1 (h y)) hy
  · exact absurd rfl (has_ratio.1 (h 0))
  · rfl

theorem has_of_kind {run : Run} (h : kind z = kind y) (hy : run.Has y) : run.Has z := by
  unfold Run.Has
  rwa [h]

theorem Good.exists_mem (h : Good triple) (hy : triple.run.Has y) : ∃ z, kind z = kind y ∧
    z ∈ triple.denotes := by
  obtain ⟨z, hz, hbetween⟩ := h.present y hy
  exact ⟨z, hz, has_of_kind hz hy, hbetween⟩

theorem Good.exists (h : Good triple) : ∃ z, z ∈ triple.denotes := by
  obtain ⟨y, hy⟩ := exists_has h.run
  obtain ⟨z, -, hz⟩ := h.exists_mem hy
  exact ⟨z, hz⟩

theorem Good.nonempty (h : Good triple) : ¬ triple.high.upto ⊆ triple.low.before := by
  obtain ⟨z, -, hlow, hhigh⟩ := h.exists
  exact fun hsub => hlow (hsub hhigh)

theorem Good.before_subset (h : Good triple) : triple.low.before ⊆ triple.high.upto := by
  obtain ⟨z, -, hlow, hhigh⟩ := h.exists
  exact subset_of_notMem triple.low.isLowerSet_before triple.high.isLowerSet_upto hlow hhigh

theorem Good.extend {high : Bound} (h : Good triple) (hvalid : high.ValidFor triple.run)
    (hsub : triple.high.upto ⊆ high.upto) : Good { triple with high := high } where
  low := h.low
  high := hvalid
  run := h.run
  present y hy := by
    obtain ⟨z, hz, hlow, hhigh⟩ := h.present y hy
    exact ⟨z, hz, hlow, hsub hhigh⟩

theorem mem_denotes_cons : y ∈ denotes (triple :: rest) ↔ y ∈ triple.denotes ∨
    y ∈ denotes rest := by
  simp [denotes]

theorem canonical_nil : Canonical [] := ⟨fun _ h => absurd h not_mem_nil, .nil⟩

theorem canonical_cons : Canonical (last :: rest) ↔ Good last ∧
    (∀ prev ∈ rest.head?, Apart prev last) ∧ Canonical rest := by
  constructor
  · rintro ⟨hgood, hapart⟩
    obtain ⟨hhead, htail⟩ := isChain_cons.1 hapart
    exact ⟨hgood _ mem_cons_self, hhead, fun t ht => hgood t (mem_cons_of_mem _ ht), htail⟩
  rintro ⟨hgood, hhead, hrest⟩
  refine ⟨fun t ht => ?_, isChain_cons.2 ⟨hhead, hrest.apart⟩⟩
  rcases mem_cons.1 ht with rfl | ht
  · exact hgood
  · exact hrest.good t ht

theorem Canonical.before (h : Canonical (last :: rest)) (hy : y ∈ denotes rest) :
    y ∈ last.low.before := by
  induction rest generalizing last with
  | nil => exact absurd hy fun ⟨_, ht, _⟩ => not_mem_nil ht
  | cons prev rest ih =>
    obtain ⟨-, hapart, hrest⟩ := canonical_cons.1 h
    have hsub := (hapart prev rfl).upto_subset
    rcases mem_denotes_cons.1 hy with hprev | hy
    · exact hsub hprev.2.2
    · exact hsub ((hrest.good prev mem_cons_self).before_subset (ih hrest hy))

end Basic

/-! ## The pieces of an overlap -/

section Pieces

variable {last triple : Triple} {rest : List Triple} {run : Run} {high : Bound}

theorem pushRemainder_spec (hc : Canonical (last :: rest)) (hrun : run ≠ rangeRationalRun)
    (hzero : run ≠ 0) (hhigh : high.ValidFor run)
    (hall : ∀ y, run.Has y ∨ last.run.Has y) (hsevers : last.high.Severs run)
    (hlonger : ¬ high.upto ⊆ last.high.upto) :
    ∃ result, pushRemainder run last.high high (last :: rest) = some result ∧ Canonical result ∧
      ∀ y, y ∈ denotes result ↔ y ∈ denotes (last :: rest) ∨ run.Has y ∧ y ∉ last.high.upto ∧
        y ∈ high.upto := by
  obtain ⟨low, hflip, hresumes⟩ := @flipExclusion_low last.high run hsevers.ne_absent
  refine ⟨⟨run, low, high⟩ :: last :: rest, by simp only [pushRemainder, hflip]; rfl,
    canonical_cons.2 ⟨?_, ?_, hc⟩, fun y => ?_⟩
  · refine good_single hrun hzero hresumes.valid hhigh fun hsub => ?_
    obtain ⟨y, hy, hlast, hmem⟩ := exists_upto hhigh hzero last.high.isLowerSet_upto hlonger
    exact hlast (hresumes.same y hy (hsub hmem))
  · intro prev hprev
    obtain rfl : last = prev := Option.some.inj hprev
    obtain ⟨y, hy, hgap⟩ := hresumes.gap hsevers
    exact ⟨y, has_or.2 (.inl ((hall y).resolve_left hy)), hgap⟩
  · rw [mem_denotes_cons, or_comm]
    refine or_congr_right ⟨fun ⟨hy, hlow, hmem⟩ =>
      ⟨hy, fun hlast => hlow (hresumes.subset hlast), hmem⟩,
      fun ⟨hy, hlast, hmem⟩ => ⟨hy, fun hlow => hlast (hresumes.same y hy hlow), hmem⟩⟩

theorem remainder_spec (hc : Canonical (last :: rest)) (hrun : run ≠ rangeRationalRun)
    (hzero : run ≠ 0) (hvalid : high.ValidFor run)
    (hall : ∀ y, run.Has y ∨ last.run.Has y)
    (hsevers : ¬ high.upto ⊆ last.high.upto → last.high.Severs run) :
    ∃ result, (if highGtHighP high last.high then pushRemainder run last.high high (last :: rest)
      else some (last :: rest)) = some result ∧
      Canonical result ∧ ∀ y, y ∈ denotes result ↔ y ∈ denotes (last :: rest) ∨ run.Has y ∧
        y ∉ last.high.upto ∧ y ∈ high.upto := by
  split
  · rename_i hgt
    rw [highGtHighP_iff] at hgt
    exact pushRemainder_spec hc hrun hzero hvalid hall (hsevers hgt) hgt
  · rename_i hgt
    rw [highGtHighP_iff, not_not] at hgt
    exact ⟨_, rfl, hc,
      fun y => ⟨.inl, fun h => h.resolve_right fun ⟨_, hlast, hup⟩ => hlast (hgt hup)⟩⟩

/-- The last range but one fills up what is between a range and the last one, which begins later. -/
structure Filled (prev last triple : Triple) : Prop where
  low : prev.low.before ⊆ triple.low.before
  same : ∀ y, last.run.Has y → y ∈ last.low.before → y ∈ prev.high.upto
  other : ∀ y, ¬ last.run.Has y → y ∈ prev.high.upto → y ∈ triple.low.before
  apart : prev.run = rangeRationalRun ∨ Apart prev triple

/-- A range that can be stored after the last ones. -/
def Ready (last : Triple) (rest : List Triple) (triple : Triple) : Prop :=
  last.low.before ⊆ triple.low.before ∨
    last.run ≠ rangeRationalRun ∧ ∃ prev before, rest = prev :: before ∧ Filled prev last triple

variable {newRun : Run} {low : Bound}

theorem toPreceding_first (hc : Canonical (last :: rest)) (hrun : last.run ≠ rangeRationalRun)
    (hgood : Good ⟨newRun, low, high⟩) (hall : ∀ y, y ∈ between low high → newRun.Has y)
    (hle : low.before ⊆ last.low.before) (hge : last.low.before ⊆ low.before) :
    ∀ prev ∈ rest.head?, prev.high.upto ⊆ high.upto ∧ prev.low.before ⊆ low.before ∧
      Apart prev ⟨newRun, low, high⟩ := by
  intro prev hprev
  obtain ⟨hlast, hapart, hrest⟩ := canonical_cons.1 hc
  obtain ⟨y, hy, hyprev, hylast⟩ := hapart prev hprev
  have hprevgood := hrest.good prev (mem_of_mem_head? hprev)
  have hsub : prev.high.upto ⊆ low.before := (hapart prev hprev).upto_subset.trans hge
  refine ⟨hsub.trans hgood.before_subset, hprevgood.before_subset.trans hsub, y, ?_,
    hyprev, hge hylast⟩
  -- the overlap has a number of the last range, next to its bound
  obtain ⟨z, hz, hzlow, hzhigh⟩ := exists_from hlast.low hlast.run high.isLowerSet_upto fun h =>
    hgood.nonempty (h.trans hge)
  rcases has_or.1 hy with hy | hy
  · exact has_or.2 (.inl hy)
  · refine has_or.2
      (.inr (has_of_kind (kind_eq_of_has hrun hz hy) (hall z ⟨fun h => hzlow (hle h), hzhigh⟩)))

theorem toPreceding_spec (hrest : Canonical rest) (hgood : Good ⟨newRun, low, high⟩)
    (hall : ∀ y, y ∈ between low high → newRun.Has y)
    (hprev : ∀ prev ∈ rest.head?, prev.high.upto ⊆ high.upto ∧ prev.low.before ⊆ low.before ∧
      (prev.run = rangeRationalRun ∨ Apart prev ⟨newRun, low, high⟩)) :
    ∃ last' rest', toPreceding rest low high newRun = some (last' :: rest') ∧
      Canonical (last' :: rest') ∧ last'.high = high ∧
      (∀ y, newRun.Has y → last'.run.Has y) ∧ ∀ y, y ∈ denotes (last' :: rest') ↔ y ∈ denotes rest ∨
        y ∈ between low high := by
  have hnew (y : ℚ) : y ∈ Triple.denotes ⟨newRun, low, high⟩ ↔ y ∈ between low high :=
    ⟨fun h => h.2, fun h => ⟨hall y h, h⟩⟩
  have hpush (hapart : ∀ prev ∈ rest.head?, Apart prev ⟨newRun, low, high⟩) :
      Canonical (⟨newRun, low, high⟩ :: rest) ∧
        ∀ y, y ∈ denotes (⟨newRun, low, high⟩ :: rest) ↔ y ∈ denotes rest ∨
        y ∈ between low high := by
    refine ⟨canonical_cons.2 ⟨hgood, hapart, hrest⟩, fun y => ?_⟩
    rw [mem_denotes_cons, hnew, or_comm]
  cases rest with
  | nil =>
    obtain ⟨hc, hmem⟩ := hpush fun prev h => nomatch h
    exact ⟨_, _, rfl, hc, rfl, fun _ h => h, hmem⟩
  | cons prev before =>
    obtain ⟨hupto, hlow, hapart⟩ := hprev prev rfl
    by_cases hq : prev.run = rangeRationalRun
    · simp only [toPreceding, if_pos hq]
      have hprevgood := hrest.good prev mem_cons_self
      obtain ⟨join, hjoin, hiff⟩ :=
        @joinP_spec prev.high low rangeRationalRun rangeRationalRun (by decide) (by decide)
        (validFor_rational _) (validFor_rational _)
      rw [hjoin]
      cases join with
      | true =>
        have hmeets := hiff.1 rfl
        have hvalid : high.ValidFor prev.run := by
          rw [hq]
          exact validFor_rational _
        refine ⟨_, _, rfl, ?_, rfl, fun y _ => ?_, fun y => ?_⟩
        · obtain ⟨-, hapart', hbefore⟩ := canonical_cons.1 hrest
          exact canonical_cons.2 ⟨hprevgood.extend hvalid hupto, hapart', hbefore⟩
        · show prev.run.Has y
          rw [hq]
          exact has_rational
        rw [mem_denotes_cons, mem_denotes_cons, or_right_comm]
        refine or_congr_left ⟨fun ⟨hhas, hnlow, hhigh⟩ => ?_, fun h => ?_⟩
        · by_cases hy : y ∈ low.before
          · exact .inl ⟨hhas, hnlow, hmeets y has_rational hy⟩
          · exact .inr ⟨hy, hhigh⟩
        rcases h with ⟨hhas, hnlow, hhigh⟩ | ⟨hnlow, hhigh⟩
        · exact ⟨hhas, hnlow, hupto hhigh⟩
        refine ⟨?_, fun h => hnlow (hlow h), hhigh⟩
        show prev.run.Has y
        rw [hq]
        exact has_rational
      | false =>
        obtain ⟨hc, hmem⟩ := hpush fun p hp => by
          obtain rfl : prev = p := Option.some.inj hp
          have hnot : ¬ Meets prev.high rangeRationalRun low rangeRationalRun :=
            fun h => Bool.false_ne_true (hiff.2 h)
          by_contra hna
          refine hnot fun y _ hy => not_apart.1 hna y ?_ hy
          rw [hq, has_or]
          exact .inl has_rational
        exact ⟨_, _, rfl, hc, rfl, fun _ h => h, hmem⟩
    · simp only [toPreceding, if_neg hq]
      obtain ⟨hc, hmem⟩ := hpush fun p hp => by
        obtain rfl : prev = p := Option.some.inj hp
        exact hapart.resolve_left hq
      exact ⟨_, _, rfl, hc, rfl, fun _ h => h, hmem⟩

/-- The range before the last one, where the last one is overlapped from its beginning. -/
theorem Filled.first {prev : Triple} (h : Filled prev last ⟨newRun, low, high⟩)
    (hrun : last.run ≠ rangeRationalRun) (hgood : Good ⟨newRun, low, high⟩)
    (hcomp : ∀ y, last.run.Has y ∨ newRun.Has y) :
    prev.high.upto ⊆ high.upto ∧ prev.low.before ⊆ low.before ∧
    (prev.run = rangeRationalRun ∨ Apart prev ⟨newRun, low, high⟩) := by
  refine ⟨?_, h.low, h.apart⟩
  obtain ⟨y, hy⟩ : ∃ y, ¬ last.run.Has y := by
    by_contra hnot
    push Not at hnot
    refine hrun (rational_of_has fun y => hnot y)
  obtain ⟨z, hz, hlow, hhigh⟩ := hgood.present y ((hcomp y).resolve_left hy)
  have hzlast : ¬ last.run.Has z := fun hz' => hy (has_of_kind hz.symm hz')
  exact subset_of_notMem prev.high.isLowerSet_upto high.isLowerSet_upto (fun hup =>
    hlow (h.other z hzlast hup)) hhigh

theorem splitLast_spec (hc : Canonical (last :: rest)) (hrun : last.run ≠ rangeRationalRun)
    (hgood : Good ⟨newRun, low, high⟩) (hready : Ready last rest ⟨newRun, low, high⟩)
    (hall : ∀ y, y ∈ between low high → newRun.Has y) (hcomp : ∀ y, last.run.Has y ∨ newRun.Has y)
    (hsevers : ¬ low.before ⊆ last.low.before → low.Severs last.run)
    (htouch : low.before ⊆ last.high.upto) :
    ∃ last' rest', splitLast last rest low high newRun = some (last' :: rest') ∧
      Canonical (last' :: rest') ∧ last'.high = high ∧ (∀ y, newRun.Has y → last'.run.Has y) ∧
      ∀ y, y ∈ denotes (last' :: rest') ↔ y ∈ denotes rest ∨ y ∈ last.denotes ∧ y ∈ low.before ∨
        y ∈ between low high := by
  obtain ⟨hlast, hapart, hrest⟩ := canonical_cons.1 hc
  unfold splitLast
  by_cases hcmp : lowLeLowP low last.low = true
  · rw [if_pos hcmp]
    rw [lowLeLowP_iff] at hcmp
    have hprev : ∀ prev ∈ rest.head?, prev.high.upto ⊆ high.upto ∧ prev.low.before ⊆ low.before ∧
        (prev.run = rangeRationalRun ∨ Apart prev ⟨newRun, low, high⟩) := by
      rcases hready with hge | ⟨-, prev, before, rfl, hfilled⟩
      · intro prev hprev
        obtain ⟨hupto, hlow, hap⟩ := toPreceding_first hc hrun hgood hall hcmp hge prev hprev
        exact ⟨hupto, hlow, .inr hap⟩
      · intro p hp
        obtain rfl : prev = p := Option.some.inj hp
        exact hfilled.first hrun hgood hcomp
    obtain ⟨last', rest', heq, hc', hhigh, hhas, hmem⟩ := toPreceding_spec hrest hgood hall hprev
    refine ⟨last', rest', heq, hc', hhigh, hhas, fun y => (hmem y).trans (or_congr_right ?_)⟩
    exact ⟨.inr, fun h => h.resolve_left fun ⟨hy, hlow⟩ => hy.2.1 (hcmp hlow)⟩
  · rw [if_neg hcmp]
    rw [lowLeLowP_iff] at hcmp
    have hsev := hsevers hcmp
    obtain ⟨stop, hflip, hstops⟩ := @flipExclusion_high low last.run hsev.ne_absent
    rw [hflip]
    have hgood' : Good { last with high := stop } := by
      refine good_single hrun hlast.run hlast.low hstops.valid fun hsub => ?_
      obtain ⟨y, hy, hylow, hmem⟩ := exists_from hlast.low hlast.run low.isLowerSet_before hcmp
      exact hylow (hsub (hstops.same y hy hmem))
    refine ⟨_, _, rfl, canonical_cons.2 ⟨hgood, fun prev hprev => ?_,
      canonical_cons.2 ⟨hgood', hapart, hrest⟩⟩, rfl, fun _ h => h, fun y => ?_⟩
    · obtain rfl : { last with high := stop } = prev := Option.some.inj hprev
      obtain ⟨y, hy, hgap⟩ := hstops.gap hsev
      exact ⟨y, has_or.2 (.inr ((hcomp y).resolve_left hy)), hgap⟩
    rw [mem_denotes_cons, mem_denotes_cons, or_comm, or_assoc, or_left_comm]
    refine or_congr_right (or_congr ⟨fun ⟨hy, hlow, hup⟩ => ?_, fun ⟨hy, hlow⟩ => ?_⟩ ⟨fun h => h.2,
      fun h => ⟨hall y h, h⟩⟩)
    · have hbefore := hstops.subset hup
      exact ⟨⟨hy, hlow, htouch hbefore⟩, hbefore⟩
    · exact ⟨hy.1, hy.2.1, hstops.same y hy.1 hlow⟩

end Pieces

end Sbcl.RationalRange
