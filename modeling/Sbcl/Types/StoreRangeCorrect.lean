import Sbcl.Types.StoreRange

/-!
# What storing a range adds to a result

* `storeRational_spec`, `storeToRational_spec`, `storeMix_spec` : the last range and the new one
  meet, one case for their runs;
* `storeRange_spec`, `store_spec` : the result is in its form, and has the numbers of the range
  besides its own.
-/

namespace Sbcl.RationalRange

open Option

variable {k k' : Run} {w y : ℚ}

/-- The new result is in its form, and has the numbers of the range and those of the result. -/
def Stored (triple : Triple) (result : List Triple) (stored : Option (List Triple)) : Prop :=
  ∃ result', stored = some result' ∧ Canonical result' ∧ ∀ y, y ∈ denotes result' ↔
    y ∈ denotes result ∨ y ∈ triple.denotes

section Branches

variable {last triple : Triple} {rest : List Triple}

/-- Numbers of the run of the last range between the new range and the last one are before the last
one. -/
theorem Ready.covered (h : Ready last rest triple) (hy : last.run.Has y)
    (hlow : y ∉ triple.low.before) (hlast : y ∈ last.low.before) : y ∈ denotes rest := by
  rcases h with hle | ⟨-, prev, before, rfl, hfilled⟩
  · exact absurd (hle hlast) hlow
  have hup := hfilled.same y hy hlast
  rcases hfilled.apart with hq | hapart
  · refine mem_denotes_cons.2 (.inl ⟨?_, fun h => hlow (hfilled.low h), hup⟩)
    rw [hq]
    exact has_rational
  · exact absurd (hapart.upto_subset hup) hlow

theorem Ready.mono {triple' : Triple} (h : Ready last rest triple)
    (hlow : triple.low.before ⊆ triple'.low.before)
    (hrun : ∀ y, triple.run.Has y → triple'.run.Has y) : Ready last rest triple' := by
  refine h.imp hlow.trans' fun ⟨hne, prev, before, hrest, hfilled⟩ => ⟨hne, prev, before, hrest, ?_⟩
  refine ⟨hfilled.low.trans hlow, hfilled.same, fun y hy hup => hlow (hfilled.other y hy hup),
    hfilled.apart.imp_right ?_⟩
  rintro ⟨y, hy, hup, hbefore⟩
  exact ⟨y, has_or.2 ((has_or.1 hy).imp_right (hrun y)), hup, hlow hbefore⟩

theorem storeSame_spec (hc : Canonical (last :: rest)) (hgood : Good triple)
    (hready : Ready last rest triple)
    (hmeets : Meets last.high last.run triple.low triple.run) (hrun : last.run = triple.run) :
    Stored triple (last :: rest)
      (some ({ last with high := if highGtHighP last.high triple.high then last.high else triple.high } :: rest)) := by
  obtain ⟨hlast, hapart, hrest⟩ := canonical_cons.1 hc
  obtain ⟨high, hhigh⟩ :
      ∃ high, high = if highGtHighP last.high triple.high then last.high else triple.high :=
        ⟨_, rfl⟩
  rw [← hhigh]
  obtain ⟨hvalid, hlastsub, hsub, hmax⟩ : high.ValidFor last.run ∧ last.high.upto ⊆ high.upto ∧
    triple.high.upto ⊆ high.upto ∧
      ∀ y, y ∈ high.upto → y ∈ last.high.upto ∨ y ∈ triple.high.upto := by
    rw [hhigh]
    split
    · rename_i hgt
      rw [highGtHighP_iff] at hgt
      exact ⟨hlast.high, subset_rfl,
        subset_of_not_subset triple.high.isLowerSet_upto last.high.isLowerSet_upto hgt,
        fun _ => .inl⟩
    · rename_i hgt
      rw [highGtHighP_iff, not_not] at hgt
      exact ⟨hrun ▸ hgood.high, hgt, subset_rfl, fun _ => .inr⟩
  refine ⟨_, rfl, canonical_cons.2 ⟨hlast.extend hvalid hlastsub, hapart, hrest⟩, fun y => ?_⟩
  rw [mem_denotes_cons, mem_denotes_cons]
  constructor
  · rintro (⟨hy, hlow, hup⟩ | hy)
    · by_cases hyup : y ∈ last.high.upto
      · exact .inl (.inl ⟨hy, hlow, hyup⟩)
      · refine .inr ⟨hrun ▸ hy, fun hbefore => hyup (hmeets y (has_or.2 (.inl hy)) hbefore),
          (hmax y hup).resolve_left hyup⟩
    · exact .inl (.inr hy)
  · rintro ((⟨hy, hlow, hup⟩ | hy) | ⟨hy, hlow, hup⟩)
    · exact .inl ⟨hy, hlow, hlastsub hup⟩
    · exact .inr hy
    · by_cases hbefore : y ∈ last.low.before
      · exact .inr (hready.covered (hrun ▸ hy) hlow hbefore)
      · exact .inl ⟨show last.run.Has y from hrun ▸ hy, hbefore, hsub hup⟩

theorem meets_rational {leftHigh rightLow : Bound} {leftRun rightRun : Run}
    (h : Meets leftHigh leftRun rightLow rightRun)
    (hall : ∀ y, leftRun.Has y ∨ rightRun.Has y) : rightLow.before ⊆ leftHigh.upto :=
  fun y hy => h y (has_or.2 (hall y)) hy

theorem storeRational_spec (hc : Canonical (last :: rest)) (hgood : Good triple)
    (hready : Ready last rest triple)
    (hmeets : Meets last.high last.run triple.low triple.run) (hrun : triple.run = rangeRationalRun)
    (hsingle : last.run = rangeIntegerRun ∨ last.run = rangeRatioRun) :
    Stored triple (last :: rest) (storeRational triple.low triple.high last rest) := by
  obtain ⟨hlast, hapart, hrest⟩ := canonical_cons.1 hc
  have hne : last.run ≠ rangeRationalRun := by rcases hsingle with h | h <;> rw [h] <;> decide
  obtain ⟨low, hlow, hlowers⟩ := @minRationalLow_spec last.run last.low triple.low hsingle hlast.low
  obtain ⟨high, hhigh, hraises⟩ :=
    @maxRationalHigh_spec last.run last.high triple.high hsingle hlast.high
  have htouch := meets_rational hmeets fun y => .inr (hrun ▸ has_rational)
  have hcomp (y : ℚ) : last.run.Has y ∨ Run.Has rangeRationalRun y := .inr has_rational
  have hgood' : Good ⟨rangeRationalRun, low, high⟩ := by
    refine ⟨validFor_rational _, validFor_rational _,
      (by decide : rangeRationalRun ≠ 0), fun y _ => ?_⟩
    obtain ⟨z, hz, hzlow, hzhigh⟩ := hgood.present y (hrun ▸ has_rational)
    exact ⟨z, hz, fun h => hzlow (hlowers.subset h), hraises.subset hzhigh⟩
  have hready' : Ready last rest ⟨rangeRationalRun, low, high⟩ := by
    rcases hlowers.least with ⟨rfl, -⟩ | hle
    · exact hready.mono subset_rfl fun _ _ => has_rational
    · exact .inl hle
  obtain ⟨last', rest', hsplit, hc', hlasthigh, hhas, hmem⟩ :=
    splitLast_spec hc hne hgood' hready' (fun _ _ => has_rational) hcomp hlowers.severs
      (hlowers.subset.trans htouch)
  -- the numbers of the overlap are numbers of the range, or numbers of the last one around it
  have hoverlap (y : ℚ) (hy : y ∈ between low high) : y ∈ triple.denotes ∨ y ∈ last.denotes ∨
      y ∈ denotes rest := by
    by_cases hbefore : y ∈ triple.low.before
    · have hrunlast : last.run.Has y := by_contra fun h => hy.1 (hlowers.same y h hbefore)
      have hnlast : y ∉ last.low.before := by
        rcases hlowers.least with ⟨rfl, -⟩ | hle
        · exact absurd hbefore hy.1
        · exact fun h => hy.1 (hle h)
      exact .inr (.inl ⟨hrunlast, hnlast, htouch hbefore⟩)
    · by_cases hup : y ∈ triple.high.upto
      · exact .inl ⟨hrun ▸ has_rational, hbefore, hup⟩
      have hrunlast : last.run.Has y := by_contra fun h => hup (hraises.same y h hy.2)
      have huplast : y ∈ last.high.upto := by
        rcases hraises.most with ⟨rfl, -⟩ | hle
        · exact absurd hy.2 hup
        · exact hle hy.2
      by_cases hnlast : y ∈ last.low.before
      · exact .inr (.inr (hready.covered hrunlast hbefore hnlast))
      · exact .inr (.inl ⟨hrunlast, hnlast, huplast⟩)
  have hpart (y : ℚ) (hy : y ∈ triple.denotes) : y ∈ between low high :=
    ⟨fun h => hy.2.1 (hlowers.subset h), hraises.subset hy.2.2⟩
  unfold storeRational
  rw [hlow, hhigh]
  simp only [bind_eq_bind, bind_some, hsplit]
  obtain ⟨result, hpush, hcresult, hmemresult⟩ :=
    @remainder_spec last' rest' last.run last.high hc' hne hlast.run hlast.high
    (fun y => .inr (hhas y has_rational)) (hlasthigh ▸ hraises.severs)
  rw [hlasthigh] at hpush hmemresult
  refine ⟨result, hpush, hcresult, fun y => ?_⟩
  rw [hmemresult, hmem, mem_denotes_cons]
  constructor
  · rintro ((hy | ⟨hy, -⟩ | hy) | ⟨hy, hnhigh, hup⟩)
    · exact .inl (.inr hy)
    · exact .inl (.inl hy)
    · rcases hoverlap y hy with h | h | h
      · exact .inr h
      · exact .inl (.inl h)
      · exact .inl (.inr h)
    · have hnlow : y ∉ triple.low.before := fun h => hnhigh (hraises.subset (hgood.before_subset h))
      by_cases hnlast : y ∈ last.low.before
      · exact .inl (.inr (hready.covered hy hnlow hnlast))
      · exact .inl (.inl ⟨hy, hnlast, hup⟩)
  · rintro ((hy | hy) | hy)
    · by_cases hbefore : y ∈ low.before
      · exact .inl (.inr (.inl ⟨hy, hbefore⟩))
      · by_cases hup : y ∈ high.upto
        · exact .inl (.inr (.inr ⟨hbefore, hup⟩))
        · exact .inr ⟨hy.1, hup, hy.2.2⟩
    · exact .inl (.inl hy)
    · exact .inl (.inr (.inr (hpart y hy)))

theorem storeToRational_spec (hc : Canonical (last :: rest)) (hgood : Good triple)
    (hle : last.low.before ⊆ triple.low.before)
    (hmeets : Meets last.high last.run triple.low triple.run) (hrun : last.run = rangeRationalRun)
    (hsingle : triple.run = rangeIntegerRun ∨ triple.run = rangeRatioRun) :
    Stored triple (last :: rest) (storeToRational triple.high triple.run last rest) := by
  obtain ⟨hlast, hapart, hrest⟩ := canonical_cons.1 hc
  have hne : triple.run ≠ rangeRationalRun := by rcases hsingle with h | h <;> rw [h] <;> decide
  obtain ⟨high, hhigh, hraises⟩ :=
    @maxRationalHigh_spec triple.run triple.high last.high hsingle hgood.high
  have htouch := meets_rational hmeets fun y => .inl (hrun ▸ has_rational)
  have hvalid : high.ValidFor last.run := by
    rw [hrun]
    exact validFor_rational _
  have hc' : Canonical ({ last with high := high } :: rest) :=
    canonical_cons.2 ⟨hlast.extend hvalid hraises.subset, hapart, hrest⟩
  obtain ⟨result, hpush, hcresult, hmemresult⟩ := remainder_spec hc' hne hgood.run hgood.high
    (fun y => .inr (show last.run.Has y from hrun ▸ has_rational)) hraises.severs
  have hstore : storeToRational triple.high triple.run last rest = some result := by
    unfold storeToRational
    rw [hhigh, ← hpush]
    simp only [bind_eq_bind, bind_some]
    by_cases hge : highGeHighP high triple.high = true
    · rw [if_pos hge, if_neg fun h => highGtHighP_iff.1 h (highGeHighP_iff.1 hge)]
      rfl
    · rw [if_neg hge, if_pos (highGtHighP_iff.2 fun h => hge (highGeHighP_iff.2 h))]
  refine ⟨result, hstore, hcresult, fun y => ?_⟩
  rw [hmemresult, mem_denotes_cons, mem_denotes_cons]
  constructor
  · rintro ((⟨hy, hlow, hup⟩ | hy) | ⟨hy, hnhigh, hup⟩)
    · by_cases huplast : y ∈ last.high.upto
      · exact .inl (.inl ⟨hy, hlow, huplast⟩)
      have hyrun : triple.run.Has y := by_contra fun h => huplast (hraises.same y h hup)
      have hyup : y ∈ triple.high.upto := by
        rcases hraises.most with ⟨rfl, -⟩ | hle
        · exact absurd hup huplast
        · exact hle hup
      exact .inr ⟨hyrun, fun h => huplast (htouch h), hyup⟩
    · exact .inl (.inr hy)
    · exact .inr ⟨hy, fun h => hnhigh (hraises.subset (htouch h)), hup⟩
  · rintro ((⟨hy, hlow, hup⟩ | hy) | ⟨hy, hlow, hup⟩)
    · exact .inl (.inl ⟨hy, hlow, hraises.subset hup⟩)
    · exact .inl (.inr hy)
    · by_cases hyhigh : y ∈ high.upto
      · exact .inl (.inl ⟨show last.run.Has y from hrun ▸ has_rational,
          fun h => hlow (hle h), hyhigh⟩)
      · exact .inr ⟨hy, hyhigh, hup⟩

theorem Complementary.symm (h : Complementary k k') : Complementary k' k :=
  h.elim (fun ⟨h1, h2⟩ => .inr ⟨h2, h1⟩) fun ⟨h1, h2⟩ => .inl ⟨h2, h1⟩

theorem Complementary.has (h : Complementary k k') (y : ℚ) : k.Has y ∨ k'.Has y := by
  rcases h with ⟨rfl, rfl⟩ | ⟨rfl, rfl⟩
  · rw [has_integer, has_ratio]
    exact em _
  · rw [has_integer, has_ratio, or_comm]
    exact em _

theorem Complementary.not_has (h : Complementary k k') (hy : k'.Has y) : ¬ k.Has y := by
  rcases h with ⟨rfl, rfl⟩ | ⟨rfl, rfl⟩
  · rw [has_integer]
    exact has_ratio.1 hy
  · rw [has_ratio, not_not]
    exact has_integer.1 hy

theorem Complementary.ne (h : Complementary k k') : k ≠ rangeRationalRun ∧ k ≠ 0 := by
  rcases h with ⟨rfl, -⟩ | ⟨rfl, -⟩ <;> decide

theorem upto_nonempty (b : Bound) : ∃ y, y ∈ b.upto := by
  cases b with
  | absent => exact ⟨0, Set.mem_univ 0⟩
  | closed x => exact ⟨x, Bound.mem_upto_closed.2 le_rfl⟩
  | opened x => exact ⟨x - 1, Bound.mem_upto_opened.2 (sub_one_lt x)⟩

theorem Earlier.exists {high low max res : Bound} (hk : Complementary k k')
    (h : Earlier k k' max high res)
    (hhigh : high.ValidFor k) (hlow : low.ValidFor k')
    (htouch : low.before ⊆ high.upto) (hw : k'.Has w)
    (hwlow : w ∉ low.before) (hwmax : w ∈ max.upto) : ∃ z, k'.Has z ∧ z ∉ low.before ∧
      z ∈ res.upto := by
  by_cases hsub : high.upto ⊆ low.before
  · rcases hk with ⟨rfl, rfl⟩ | ⟨rfl, rfl⟩
    · rcases hhigh.integer rfl with rfl | ⟨t, rfl⟩
      · exact absurd (hsub (Set.mem_univ w)) hwlow
      -- the ratios between the last integer and the next one
      have hreach (z : ℚ) (hz : ¬ z.isInt = true) (hzt : z < t + 1) (hzmax : z ∈ max.upto) :
          z ∈ res.upto := by
        by_contra hzres
        obtain ⟨x, hx, hxz, hxt⟩ := h.reach z (has_ratio.2 hz) hzmax hzres
        obtain ⟨m, rfl⟩ := isInt_iff.1 (has_integer.1 hx)
        have h1 : m < t + 1 := by exact_mod_cast hxz.trans hzt
        have h2 : t < m := Int.cast_lt.1 (not_le.1 fun hle => hxt (Bound.mem_upto_closed.2 hle))
        omega
      by_cases hwt : w < t + 1
      · exact ⟨w, hw, hwlow, hreach w (has_ratio.1 hw) hwt hwmax⟩
      · obtain ⟨z, htz, hzt, hz⟩ := exists_ratio (lt_add_one (t : ℚ))
        exact ⟨z, has_ratio.2 hz,
          fun hzlow => not_lt_of_ge (Bound.mem_upto_closed.1 (htouch hzlow)) htz,
          hreach z hz hzt (max.isLowerSet_upto (hzt.le.trans (not_lt.1 hwt)) hwmax)⟩
    · rcases hlow.integer rfl with rfl | ⟨n, rfl⟩
      · obtain ⟨y, hy⟩ := upto_nonempty high
        exact absurd (hsub hy) (Set.notMem_empty y)
      have hn : (n : ℚ) ∈ res.upto := by
        by_contra hnres
        obtain ⟨x, -, hxn, hx⟩ := h.reach n (has_integer.2 (isInt_intCast n))
          (max.isLowerSet_upto (not_lt.1 fun hlt =>
            hwlow (Bound.mem_before_closed.2 hlt)) hwmax) hnres
        exact hx (htouch (Bound.mem_before_closed.2 hxn))
      exact ⟨n, has_integer.2 (isInt_intCast n),
        fun hlt => lt_irrefl _ (Bound.mem_before_closed.1 hlt), hn⟩
  · obtain ⟨z, hz, hzlow, hzhigh⟩ := exists_from hlow hk.symm.ne.2 high.isLowerSet_upto hsub
    exact ⟨z, hz, hzlow, h.least hzhigh⟩

theorem Later.exists {high low min res : Bound} (hk : Complementary k k')
    (h : Later k k' low min res)
    (hhigh : high.ValidFor k') (hlow : low.ValidFor k)
    (htouch : low.before ⊆ high.upto) (hw : k'.Has w)
    (hwmin : w ∉ min.before) (hwhigh : w ∈ high.upto) : ∃ z, k'.Has z ∧ z ∉ res.before ∧
      z ∈ high.upto := by
  have htouch' : high.neg.before ⊆ low.neg.upto := by
    intro y hy
    rw [Bound.mem_before_neg] at hy
    rw [Bound.mem_upto_neg]
    exact fun hlow => hy (htouch hlow)
  obtain ⟨z, hz, hzhigh, hzres⟩ := h.earlier.exists hk hlow.neg hhigh.neg htouch' (has_neg.2 hw)
    (fun h => Bound.mem_before_neg.1 h (by rwa [neg_neg])) (Bound.mem_upto_neg.2 (by rwa [neg_neg]))
  exact ⟨-z, has_neg.2 hz, Bound.mem_upto_neg.1 hzres,
    not_not.1 fun h => hzhigh (Bound.mem_before_neg.2 h)⟩

/-- The low bound of the overlap of the last range and a range of the other run. -/
structure OverlapLow (last : Triple) (rest : List Triple) (triple : Triple) (low : Bound) :
    Prop where
  sameLast : ∀ y, last.run.Has y → y ∉ low.before → y ∉ last.low.before
  same : ∀ y, triple.run.Has y → (y ∈ low.before ↔ y ∈ triple.low.before)
  severs : ¬ low.before ⊆ last.low.before → low.Severs last.run
  touch : low.before ⊆ last.high.upto
  ready : ∀ run high, (∀ y, triple.run.Has y → run.Has y) → Ready last rest ⟨run, low, high⟩
  meets : ∃ z, last.run.Has z ∧ z ∉ low.before ∧ z ∈ last.high.upto

theorem maxLowRational_spec (hk : Complementary last.run triple.run) (hlast : Good last)
    (hgood : Good triple)
    (hready : Ready last rest triple) (htouch : triple.low.before ⊆ last.high.upto) :
    OverlapLow last rest triple (maxLowRational last.low triple.low) := by
  obtain ⟨w, hw, hwlow, hwhigh⟩ := hlast.exists
  unfold maxLowRational
  by_cases hcmp : lowLeLowP last.low triple.low = true
  · rw [if_pos hcmp]
    rw [lowLeLowP_iff] at hcmp
    have hlater := laterLow_spec hk.symm hgood.low hlast.low hcmp
    exact ⟨fun y _ hy hlow => hy (hlater.least hlow),
      fun y hy => ⟨fun h => hlater.most h, hlater.same y hy⟩, hlater.severs,
      hlater.most.trans htouch, fun run high _ => .inl hlater.least,
      hlater.exists hk.symm hlast.high hgood.low htouch hw hwlow hwhigh⟩
  · rw [if_neg hcmp]
    rw [lowLeLowP_iff] at hcmp
    have hle := subset_of_not_subset triple.low.isLowerSet_before last.low.isLowerSet_before hcmp
    have hlater := laterLow_spec hk hlast.low hgood.low hle
    obtain ⟨-, prev, before, rfl, hfilled⟩ := hready.resolve_left hcmp
    refine ⟨fun y hy hnlow hlow => hnlow (hlater.same y hy hlow),
      fun y hy => ⟨fun hlow => ?_, fun h => hlater.least h⟩,
      fun h => absurd hlater.most h, hlater.most.trans hlast.before_subset,
        fun run high h => hready.mono hlater.least h,
      w, hw, fun h => hwlow (hlater.most h), hwhigh⟩
    by_contra hnlow
    obtain ⟨z, hz, hyz, hzlow⟩ := hlater.reach y hy hnlow hlow
    exact hnlow (hfilled.other y (hk.not_has hy)
      (prev.high.isLowerSet_upto hyz.le (hfilled.same z hz hzlow)))

theorem minHighRational_spec {high1 high2 : Bound} {k1 k2 : Run} (hk : Complementary k1 k2)
    (h1 : high1.ValidFor k1)
    (h2 : high2.ValidFor k2) : Earlier k2 k1 high1 high2 (minHighRational high1 high2) ∨
      Earlier k1 k2 high2 high1 (minHighRational high1 high2) := by
  unfold minHighRational
  by_cases hcmp : highGeHighP high1 high2 = true
  · rw [if_pos hcmp]
    rw [highGeHighP_iff] at hcmp
    exact .inl (earlierHigh_spec hk.symm h1 h2 hcmp)
  · rw [if_neg hcmp]
    rw [highGeHighP_iff] at hcmp
    exact .inr (earlierHigh_spec hk h2 h1
      (subset_of_not_subset high1.isLowerSet_upto high2.isLowerSet_upto hcmp))

theorem storeMix_spec (hc : Canonical (last :: rest)) (hgood : Good triple)
    (hready : Ready last rest triple)
    (hmeets : Meets last.high last.run triple.low triple.run)
    (hk : Complementary last.run triple.run) :
    Stored triple (last :: rest) (storeMix triple.low triple.high triple.run last rest) := by
  obtain ⟨hlast, hapart, hrest⟩ := canonical_cons.1 hc
  have htouch := meets_rational hmeets hk.has
  obtain ⟨low, hlow⟩ : ∃ low, low = maxLowRational last.low triple.low := ⟨_, rfl⟩
  obtain ⟨high, hhigh⟩ : ∃ high, high = minHighRational last.high triple.high := ⟨_, rfl⟩
  have hoverlap := hlow ▸ maxLowRational_spec hk hlast hgood hready htouch
  have hearlier := hhigh ▸ minHighRational_spec hk hlast.high hgood.high
  obtain ⟨w, hw, hwlow, hwhigh⟩ := hgood.exists
  have hsameLast (y : ℚ) (hy : last.run.Has y) (hup : y ∈ high.upto) : y ∈ last.high.upto :=
    hearlier.elim (fun h => h.most hup) fun h => h.same y hy hup
  have hsame (y : ℚ) (hy : triple.run.Has y) (hup : y ∈ high.upto) : y ∈ triple.high.upto :=
    hearlier.elim (fun h => h.same y hy hup) fun h => h.most hup
  -- the overlap has a number of the new range
  obtain ⟨z, hz, hzbetween⟩ : ∃ z, triple.run.Has z ∧ z ∈ between low high := by
    rcases hearlier with h | h
    · exact ⟨w, hw, fun h => hwlow ((hoverlap.same w hw).1 h), h.least hwhigh⟩
    · obtain ⟨z, hz, hzlow, hzhigh⟩ := h.exists hk hlast.high hgood.low htouch hw hwlow hwhigh
      exact ⟨z, hz, fun h => hzlow ((hoverlap.same z hz).1 h), hzhigh⟩
  have hcollapsed := @collapseRationalRun_spec rangeRationalRun low high (by decide)
    (validFor_rational _) (validFor_rational _) fun hsub => hzbetween.1 (hsub hzbetween.2)
  obtain ⟨newRun, hnewRun⟩ : ∃ newRun, newRun = collapseRationalRun rangeRationalRun low high :=
    ⟨_, rfl⟩
  rw [← hnewRun] at hcollapsed
  have hall (y : ℚ) (hy : y ∈ between low high) : newRun.Has y :=
    (hcollapsed.same y hy).2 has_rational
  have hnew (y : ℚ) (hy : triple.run.Has y) : newRun.Has y :=
    has_of_kind (kind_eq_of_has hk.symm.ne.1 hz hy) (hall z hzbetween)
  have hcomp (y : ℚ) : last.run.Has y ∨ newRun.Has y := (hk.has y).imp_right (hnew y)
  obtain ⟨last', rest', hsplit, hc', hlasthigh, hhas, hmem⟩ :=
    splitLast_spec hc hk.ne.1 hcollapsed.good
    (hoverlap.ready newRun high hnew) hall hcomp hoverlap.severs hoverlap.touch
  have hbetween (y : ℚ) (hy : y ∈ between low high) : y ∈ last.denotes ∨ y ∈ triple.denotes :=
    (hk.has y).imp (fun h => ⟨h, hoverlap.sameLast y h hy.1, hsameLast y h hy.2⟩)
      fun h => ⟨h, fun hbefore => hy.1 ((hoverlap.same y h).2 hbefore), hsame y h hy.2⟩
  have hlowhigh := hcollapsed.good.before_subset
  unfold storeMix
  simp only [← hlow, ← hhigh, ← hnewRun, bind_eq_bind, hsplit, bind_some]
  rcases hearlier with h | h
  · -- the new range ends first
    obtain ⟨result, hpush, hcresult, hmemresult⟩ :=
      @remainder_spec last' rest' last.run last.high hc' hk.ne.1 hk.ne.2 hlast.high
      (fun y => (hcomp y).imp_right (hhas y)) (hlasthigh ▸ h.severs)
    rw [hlasthigh] at hpush hmemresult
    refine ⟨result, ?_, hcresult, fun y => ?_⟩
    · rw [← hpush, if_neg fun hgt => highGtHighP_iff.1 hgt h.least]
      rfl
    rw [hmemresult, hmem, mem_denotes_cons]
    constructor
    · rintro ((hy | ⟨hy, -⟩ | hy) | ⟨hy, hnhigh, hup⟩)
      · exact .inl (.inr hy)
      · exact .inl (.inl hy)
      · exact (hbetween y hy).imp_left .inl
      · exact .inl (.inl ⟨hy, hoverlap.sameLast y hy fun h => hnhigh (hlowhigh h), hup⟩)
    · rintro ((hy | hy) | hy)
      · by_cases hbefore : y ∈ low.before
        · exact .inl (.inr (.inl ⟨hy, hbefore⟩))
        · by_cases hup : y ∈ high.upto
          · exact .inl (.inr (.inr ⟨hbefore, hup⟩))
          · exact .inr ⟨hy.1, hup, hy.2.2⟩
      · exact .inl (.inl hy)
      · exact .inl (.inr (.inr ⟨fun hbefore => hy.2.1 ((hoverlap.same y hy.1).1 hbefore),
          h.least hy.2.2⟩))
  · -- the last range ends first
    have hlastHas (y : ℚ) : triple.run.Has y ∨ newRun.Has y := by
      obtain ⟨x, hx, hxlow, hxhigh⟩ := hoverlap.meets
      refine (hk.has y).symm.imp_right fun hy => ?_
      exact has_of_kind (kind_eq_of_has hk.ne.1 hx hy) (hall x ⟨hxlow, h.least hxhigh⟩)
    obtain ⟨result, hpush, hcresult, hmemresult⟩ :=
      @remainder_spec last' rest' triple.run triple.high hc' hk.symm.ne.1 hgood.run
      hgood.high (fun y => (hlastHas y).imp_right (hhas y)) (hlasthigh ▸ h.severs)
    rw [hlasthigh] at hpush hmemresult
    refine ⟨result, ?_, hcresult, fun y => ?_⟩
    · rw [← hpush, if_neg fun hgt => highGtHighP_iff.1 hgt h.least]
      rfl
    rw [hmemresult, hmem, mem_denotes_cons]
    constructor
    · rintro ((hy | ⟨hy, -⟩ | hy) | ⟨hy, hnhigh, hup⟩)
      · exact .inl (.inr hy)
      · exact .inl (.inl hy)
      · exact (hbetween y hy).imp_left .inl
      · exact .inr ⟨hy, fun hbefore => hnhigh (hlowhigh ((hoverlap.same y hy).2 hbefore)), hup⟩
    · rintro ((hy | hy) | hy)
      · by_cases hbefore : y ∈ low.before
        · exact .inl (.inr (.inl ⟨hy, hbefore⟩))
        · exact .inl (.inr (.inr ⟨hbefore, h.least hy.2.2⟩))
      · exact .inl (.inl hy)
      have hnlow : y ∉ low.before := fun hbefore => hy.2.1 ((hoverlap.same y hy.1).1 hbefore)
      by_cases hup : y ∈ high.upto
      · exact .inl (.inr (.inr ⟨hnlow, hup⟩))
      · exact .inr ⟨hy.1, hup, hy.2.2⟩

end Branches

/-! ## Storing -/

section Store

variable {triple : Triple} {result : List Triple}

/-- A range that can be stored to the result. -/
def ReadyFor (result : List Triple) (triple : Triple) : Prop :=
  match result with
  | [] => True
  | last :: rest => Ready last rest triple

theorem complementary_of_ne : ∀ {k k' : Run}, k ≠ 0 → k' ≠ 0 → k ≠ rangeRationalRun →
    k' ≠ rangeRationalRun → k ≠ k' → Complementary k k' := by
  unfold Complementary
  decide

theorem single_of_ne : ∀ {run : Run}, run ≠ 0 → run ≠ rangeRationalRun → run = rangeIntegerRun ∨
    run = rangeRatioRun := by decide

theorem storeRange_spec (hc : Canonical result) (hgood : Good triple)
    (hready : ReadyFor result triple) :
    Stored triple result (storeRange triple.low triple.high triple.run result) := by
  cases result with
  | nil =>
    refine ⟨_, rfl, canonical_cons.2 ⟨hgood, (fun _ h => nomatch h), hc⟩, fun y => ?_⟩
    rw [mem_denotes_cons, or_comm]
  | cons last rest =>
    obtain ⟨hlast, hapart, hrest⟩ := canonical_cons.1 hc
    obtain ⟨join, hjoin, hiff⟩ := joinP_spec hlast.run hgood.run hlast.high hgood.low
    unfold storeRange
    simp only [hjoin, bind_eq_bind, bind_some]
    by_cases hj : join = true
    · rw [if_pos hj]
      have hmeets := hiff.1 hj
      by_cases hsame : last.run = triple.run
      · rw [if_pos hsame]
        exact storeSame_spec hc hgood hready hmeets hsame
      rw [if_neg hsame]
      by_cases hq : triple.run = rangeRationalRun
      · rw [if_pos hq]
        exact storeRational_spec hc hgood hready hmeets hq (single_of_ne hlast.run fun h =>
          hsame (h.trans hq.symm))
      rw [if_neg hq]
      by_cases hlq : last.run = rangeRationalRun
      · rw [if_pos hlq]
        exact storeToRational_spec hc hgood (hready.resolve_right fun h => h.1 hlq) hmeets hlq
          (single_of_ne hgood.run hq)
      rw [if_neg hlq]
      exact storeMix_spec hc hgood hready hmeets
        (complementary_of_ne hlast.run hgood.run hlq hq hsame)
    · rw [if_neg hj]
      have hap : Apart last triple := by
        by_contra hna
        exact hj (hiff.2 (not_apart.1 hna))
      refine ⟨_, rfl, canonical_cons.2 ⟨hgood, fun prev hprev => ?_, hc⟩, fun y => ?_⟩
      · obtain rfl : last = prev := Option.some.inj hprev
        exact hap
      · rw [mem_denotes_cons, or_comm]

/-- The inclusive or of the runs. -/
def maskOf (ranges : List Triple) : Run := ranges.foldr (fun triple mask => triple.run ||| mask) 0

theorem maskOf_has : (maskOf result).Has y ↔ ∃ triple ∈ result, triple.run.Has y := by
  induction result with
  | nil => exact ⟨fun h => absurd h not_has_zero, fun ⟨_, h, _⟩ => absurd h List.not_mem_nil⟩
  | cons last rest ih =>
    rw [maskOf, List.foldr_cons, has_or, List.exists_mem_cons_iff]
    exact or_congr_right ih

theorem run_ext {r s : Run} (h : ∀ y, r.Has y ↔ s.Has y) : r = s := by
  obtain ⟨y, -, -, hy⟩ := exists_ratio zero_lt_one
  have h0 := h 0
  have hy' := h y
  rw [Run.Has, Run.Has, kind_of_isInt rfl] at h0
  rw [Run.Has, Run.Has, kind_of_ratio hy] at hy'
  revert h0 hy'
  exact (by decide : ∀ r s : Run,
    (logtest rangeIntegerRun r = true ↔ logtest rangeIntegerRun s = true) →
    (logtest rangeRatioRun r = true ↔ logtest rangeRatioRun s = true) → r = s) r s

theorem Canonical.mask (hc : Canonical result) : (maskOf result).Has y ↔ ∃ z, kind z = kind y ∧
    z ∈ denotes result := by
  rw [maskOf_has]
  constructor
  · rintro ⟨triple, htriple, hy⟩
    obtain ⟨z, hz, hmem⟩ := (hc.good triple htriple).exists_mem hy
    exact ⟨z, hz, triple, htriple, hmem⟩
  · rintro ⟨z, hz, triple, htriple, hmem⟩
    exact ⟨triple, htriple, has_of_kind hz.symm hmem.1⟩

/-- A result and its mask. -/
structure Holds (acc : Result) (s : Set ℚ) : Prop where
  canonical : Canonical acc.1
  mask : acc.2 = maskOf acc.1
  mem : ∀ y, y ∈ denotes acc.1 ↔ y ∈ s

/-- The bounds of a range are bounds of its run. -/
structure Valid (triple : Triple) : Prop where
  low : triple.low.ValidFor triple.run
  high : triple.high.ValidFor triple.run
  run : triple.run ≠ 0

def collapsed (triple : Triple) : Triple :=
  { triple with run := collapseRationalRun triple.run triple.low triple.high }

theorem store_spec {acc : Result} {s : Set ℚ} (hacc : Holds acc s) (hvalid : Valid triple)
    (hready : ReadyFor acc.1 (collapsed triple)) :
    ∃ acc', store triple acc = some acc' ∧ Holds acc' (s ∪ triple.denotes) := by
  unfold store storeRationalRange
  by_cases hempty : emptyRange triple.low triple.high = true
  · rw [if_pos hempty]
    rw [emptyRange_iff] at hempty
    refine ⟨_, rfl, hacc.canonical, hacc.mask,
      fun y => (hacc.mem y).trans ⟨.inl, fun h => h.resolve_right ?_⟩⟩
    exact fun hy => hy.2.1 (hempty hy.2.2)
  rw [if_neg hempty]
  rw [emptyRange_iff] at hempty
  obtain ⟨hgood, hsame⟩ := collapseRationalRun_spec hvalid.run hvalid.low hvalid.high hempty
  obtain ⟨result, hstore, hc, hmem⟩ :=
    @storeRange_spec (collapsed triple) acc.1 hacc.canonical hgood hready
  have hdenotes (y : ℚ) : y ∈ (collapsed triple).denotes ↔ y ∈ triple.denotes :=
    and_congr_left fun hy => hsame y hy
  refine ⟨(result, acc.2 ||| collapseRationalRun triple.run triple.low triple.high), ?_, hc,
    ?_, fun y => ?_⟩
  · have hstore' :
        storeRange triple.low triple.high (collapseRationalRun triple.run triple.low triple.high)
          acc.1 = some result :=
      hstore
    simp only [hstore', bind_eq_bind, bind_some]
    rfl
  · refine run_ext fun y => ?_
    rw [has_or, hacc.mask, hacc.canonical.mask, hc.mask]
    constructor
    · rintro (⟨z, hz, hmem'⟩ | hy)
      · exact ⟨z, hz, (hmem z).2 (.inl hmem')⟩
      · obtain ⟨z, hz, hmem'⟩ := hgood.exists_mem hy
        exact ⟨z, hz, (hmem z).2 (.inr hmem')⟩
    · rintro ⟨z, hz, hmem'⟩
      rcases (hmem z).1 hmem' with h | h
      · exact .inl ⟨z, hz, h⟩
      · exact .inr (has_of_kind hz.symm h.1)
  · rw [hmem, hacc.mem, hdenotes]
    rfl

end Store

end Sbcl.RationalRange
