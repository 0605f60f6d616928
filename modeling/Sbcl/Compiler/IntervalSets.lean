import Sbcl.Compiler.IntervalCorrect

/-!
# Intersections, unions and differences of intervals: exactness

* `testLowerBound_spec`, `testUpperBound_spec` : a bound that tests as inside an interval bounds
  more than the interval's own, and has members of it on its side;
* `mem_intersection`, `mem_mergePair_iff`, `intervalLt_iff` : what each operation is, as a set;
* `interval_sets_exact` : all of them;
* `interval_difference_exact_iff` : the difference, which is exact where the two intervals share no
  absent bound.
-/

namespace Sbcl.Compiler

open Intervals Option

variable {x y z : Interval} {a b n : ℚ}

/-! ## Tests of bounds -/

theorem closure_contains_iff {p : ℚ} : intervalContainsP p (intervalClosure y) = true ↔
    (∀ b ∈ y.low, b.value ≤ p) ∧ ∀ b ∈ y.high, p ≤ b.value := by
  refine ⟨fun h => ?_, fun h => closure_contains h.1 h.2⟩
  obtain ⟨lo, hi⟩ := y
  cases lo <;> cases hi <;> simp [intervalContainsP, intervalClosure, typeBoundNumber] at h ⊢
    <;> grind

theorem testNumber_low_iff {p : Bound} : testNumber p y .low = true ↔
    (∀ b ∈ y.low, b.value < p.value ∨ b.value = p.value ∧ (b.isStrict = true → p.isStrict = true)) ∧
      ∀ b ∈ y.high, p.value < b.value ∨ p.value = b.value ∧ p.isStrict = false ∧
        b.isStrict = false := by
  unfold testNumber
  obtain ⟨lo, hi⟩ := y
  simp only [closure_contains_iff, typeBoundNumber, map_eq_some_iff]
  cases lo <;> cases hi <;> simp <;> grind

theorem testUpperBound_eq (p : Option Bound) (y : Interval) :
    testUpperBound p y = testLowerBound (p.map Bound.neg) (intervalNeg y) := by
  cases p with
  | none =>
    rw [testUpperBound, map_none, testLowerBound, intervalNeg_eq, isNone_map]
  | some p =>
    show testNumber p y .high = testNumber p.neg (intervalNeg y) .low
    rw [Bool.eq_iff_iff, testNumber_low_iff]
    unfold testNumber
    obtain ⟨lo, hi⟩ := y
    simp only [closure_contains_iff, typeBoundNumber, map_eq_some_iff, intervalNeg_eq]
    cases lo <;> cases hi <;> simp <;> grind

theorem inLow_neg (x : Interval) (n : ℚ) : (intervalNeg x).InLow (-n) ↔ x.InHigh n := by
  unfold Interval.InLow Interval.InHigh
  rw [intervalNeg_eq]
  simp [Bound.Below, Bound.Above]

theorem mem_neg_iff : -n ∈ intervalNeg x ↔ n ∈ x := by
  refine ⟨fun h => ?_, mem_intervalNeg⟩
  have := mem_intervalNeg h
  rwa [neg_neg, intervalNeg_neg] at this

theorem testLowerBound_spec (hb : b ∈ y) (h : testLowerBound x.low y = true) :
    (∀ n, x.InLow n → y.InLow n) ∧ ∃ c ∈ y, x.InLow c := by
  cases hl : x.low with
  | none =>
    rw [hl, testLowerBound, isNone_iff_eq_none] at h
    exact ⟨fun n _ => by simp [Interval.InLow, h], b, hb, by simp [Interval.InLow, hl]⟩
  | some p =>
    rw [hl, testLowerBound, testNumber_low_iff] at h
    obtain ⟨hlow, hhigh⟩ := h
    have hinLow (n : ℚ) : x.InLow n ↔ p.Below n := by simp [Interval.InLow, hl]
    have hinc (n : ℚ) (hn : x.InLow n) : y.InLow n := by
      intro c hc
      rw [hinLow] at hn
      rcases hlow c hc with hlt | ⟨heq, hs⟩
      · exact Bound.below_of_lt (hlt.trans_le hn.1)
      · exact hn.weaken heq hs
    refine ⟨hinc, ?_⟩
    cases hs : p.isStrict with
    | false =>
      have hp : x.InLow p.value := (hinLow _).2 ⟨le_rfl, by simp [hs]⟩
      refine ⟨p.value, ⟨hinc _ hp, fun u hu => ?_⟩, hp⟩
      rcases hhigh u hu with hlt | ⟨heq, -, hu⟩
      · exact Bound.above_of_lt hlt
      · exact ⟨heq.le, by simp [hu]⟩
    | true =>
      have hlt : ∀ u ∈ y.high, p.value < u.value :=
        fun u hu => (hhigh u hu).resolve_right (by simp [hs])
      obtain ⟨c, hc, hc'⟩ := Interval.exists_inHigh_gt hlt
      have hp : x.InLow c := (hinLow _).2 (Bound.below_of_lt hc)
      exact ⟨c, ⟨hinc _ hp, fun u hu => Bound.above_of_lt (hc' u hu)⟩, hp⟩

theorem testUpperBound_spec (hb : b ∈ y) (h : testUpperBound x.high y = true) :
    (∀ n, x.InHigh n → y.InHigh n) ∧ ∃ c ∈ y, x.InHigh c := by
  rw [testUpperBound_eq] at h
  obtain ⟨hinc, c, hc, hlow⟩ := testLowerBound_spec (x := intervalNeg x) (mem_intervalNeg hb) h
  refine ⟨fun n hn => (inLow_neg y n).1 (hinc (-n) ((inLow_neg x n).2 hn)), -c, ?_, ?_⟩
  · rwa [← mem_neg_iff, neg_neg]
  · rwa [← inLow_neg, neg_neg]

theorem exists_common_of_low (ha : a ∈ x) (hb : b ∈ y) (h : testLowerBound x.low y = true) :
    ∃ c, c ∈ x ∧ c ∈ y := by
  obtain ⟨hinc, c, hc, hlow⟩ := testLowerBound_spec hb h
  rcases le_total a c with hac | hca
  · exact ⟨a, ha, Interval.mem_of_inLow (hinc a ha.1) hc hac⟩
  · exact ⟨c, Interval.mem_of_inLow hlow ha hca, hc⟩

theorem exists_common_of_high (ha : a ∈ x) (hb : b ∈ y) (h : testUpperBound x.high y = true) :
    ∃ c, c ∈ x ∧ c ∈ y := by
  obtain ⟨hinc, c, hc, hhigh⟩ := testUpperBound_spec hb h
  rcases le_total a c with hac | hca
  · exact ⟨c, Interval.mem_of_inHigh hhigh ha hac, hc⟩
  · exact ⟨a, ha, Interval.mem_of_inHigh (hinc a ha.2) hc hca⟩

/-! ## Intersection and difference -/

/-- The lower bound of the intersection, and the remainder on its left. -/
def lowParts (x y : Interval) : Option Bound × Interval :=
  if testLowerBound x.low y then (x.low, ⟨y.low, oppositeBound x.low⟩)
  else if testLowerBound y.low x then (y.low, ⟨x.low, oppositeBound y.low⟩)
  else (none, ⟨none, none⟩)

/-- The upper bound of the intersection, and the remainder on its right. -/
def highParts (x y : Interval) : Option Bound × Interval :=
  if testUpperBound x.high y then (x.high, ⟨oppositeBound x.high, y.high⟩)
  else if testUpperBound y.high x then (y.high, ⟨oppositeBound y.high, x.high⟩)
  else (none, ⟨none, none⟩)

theorem intersectionDifference_eq (x y : Interval) :
    intervalIntersectionDifference x y =
      if testLowerBound x.low y || testUpperBound x.high y || testLowerBound y.low x ||
        testUpperBound y.high x then
        (some ⟨(lowParts x y).1, (highParts x y).1⟩, [(lowParts x y).2, (highParts x y).2])
      else (none, [x, y]) := by
  unfold intervalIntersectionDifference lowParts highParts
  cases testLowerBound x.low y <;> cases testLowerBound y.low x
    <;> cases testUpperBound x.high y <;> cases testUpperBound y.high x <;> rfl

theorem tests_iff (ha : a ∈ x) (hb : b ∈ y) :
    (testLowerBound x.low y || testUpperBound x.high y || testLowerBound y.low x ||
      testUpperBound y.high x) = true ↔ ∃ c, c ∈ x ∧ c ∈ y := by
  refine ⟨fun h => ?_, ?_⟩
  · simp only [Bool.or_eq_true] at h
    rcases h with ((h | h) | h) | h
    · exact exists_common_of_low ha hb h
    · exact exists_common_of_high ha hb h
    · obtain ⟨c, hy, hx⟩ := exists_common_of_low hb ha h
      exact ⟨c, hx, hy⟩
    · obtain ⟨c, hy, hx⟩ := exists_common_of_high hb ha h
      exact ⟨c, hx, hy⟩
  · rintro ⟨c, hx, hy⟩
    rcases testLowerBound_or hx hy with h | h <;> simp [h]

theorem above_oppositeBound {p : Bound} : (∀ b ∈ oppositeBound (some p), b.Above n) ↔
    ¬p.Below n := by
  cases p <;> simp [oppositeBound, Bound.Above, Bound.Below] <;> grind

theorem mem_leftRemainder (hinc : ∀ n, x.InLow n → y.InLow n) (hne : x.low ≠ none) :
    n ∈ (⟨y.low, oppositeBound x.low⟩ : Interval) ↔ ¬(x.InLow n ↔ y.InLow n) := by
  obtain ⟨p, hp⟩ := ne_none_iff_exists'.1 hne
  have hlow : x.InLow n ↔ p.Below n := by simp [Interval.InLow, hp]
  have hmem : n ∈ (⟨y.low, oppositeBound x.low⟩ : Interval) ↔ y.InLow n ∧ ¬p.Below n := by
    rw [hp]
    exact and_congr_right fun _ => above_oppositeBound
  rw [hmem, ← hlow]
  tauto

theorem lowParts_fst (hx : a ∈ x) (hy : a ∈ y) : (∀ b ∈ (lowParts x y).1, b.Below n) ↔
    x.InLow n ∧ y.InLow n := by
  unfold lowParts
  split_ifs with h1 h2
  · have hinc := (testLowerBound_spec hy h1).1 n
    exact ⟨fun h => ⟨h, hinc h⟩, And.left⟩
  · have hinc := (testLowerBound_spec hx h2).1 n
    exact ⟨fun h => ⟨hinc h, h⟩, And.right⟩
  · exact ((testLowerBound_or hx hy).elim h1 h2).elim

/-- The left remainder is of the numbers on the side of one lower bound only. -/
theorem mem_lowParts_snd (hx : a ∈ x) (hy : a ∈ y) (hne : ¬(x.low = none ∧ y.low = none)) :
    n ∈ (lowParts x y).2 ↔ ¬(x.InLow n ↔ y.InLow n) := by
  have habsent {p : Option Bound} {z : Interval} (h : testLowerBound p z = true) (hp : p = none) :
      z.low = none := by
    rw [hp] at h
    exact isNone_iff_eq_none.1 h
  unfold lowParts
  split_ifs with h1 h2
  · exact mem_leftRemainder (testLowerBound_spec hy h1).1 fun h => hne ⟨h, habsent h1 h⟩
  · rw [iff_comm (a := x.InLow n)]
    exact mem_leftRemainder (testLowerBound_spec hx h2).1 fun h => hne ⟨habsent h2 h, h⟩
  · exact ((testLowerBound_or hx hy).elim h1 h2).elim

theorem lowParts_snd_of_none (hx : x.low = none) (hy : y.low = none) :
    (lowParts x y).2 = ⟨none, none⟩ := by
  unfold lowParts
  simp [hx, hy, testLowerBound, oppositeBound]

theorem oppositeBound_neg (p : Option Bound) :
    oppositeBound (p.map Bound.neg) = (oppositeBound p).map Bound.neg := by
  match p with
  | none | some (.closed _) | some (.strict _) => rfl

theorem highParts_eq (x y : Interval) :
    highParts x y = ((lowParts (intervalNeg x) (intervalNeg y)).1.map Bound.neg,
      intervalNeg (lowParts (intervalNeg x) (intervalNeg y)).2) := by
  have hneg (p : Option Bound) : (p.map Bound.neg).map Bound.neg = p := by
    cases p <;> simp [Bound.neg_neg]
  unfold highParts lowParts
  rw [testUpperBound_eq, testUpperBound_eq]
  show (if testLowerBound (intervalNeg x).low (intervalNeg y) = true then _ else
    if testLowerBound (intervalNeg y).low (intervalNeg x) = true then _ else _) = _
  split_ifs <;> simp [intervalNeg_eq, oppositeBound_neg, hneg]

theorem highParts_fst (hx : a ∈ x) (hy : a ∈ y) : (∀ b ∈ (highParts x y).1, b.Above n) ↔
    x.InHigh n ∧ y.InHigh n := by
  have h := lowParts_fst (n := -n) (mem_intervalNeg hx) (mem_intervalNeg hy)
  rw [inLow_neg, inLow_neg] at h
  rw [highParts_eq, ← h]
  simp [Bound.Below, Bound.Above, le_neg, lt_neg]

theorem mem_highParts_snd (hx : a ∈ x) (hy : a ∈ y) (hne : ¬(x.high = none ∧ y.high = none)) :
    n ∈ (highParts x y).2 ↔ ¬(x.InHigh n ↔ y.InHigh n) := by
  have hne' : ¬((intervalNeg x).low = none ∧ (intervalNeg y).low = none) := by
    simpa [intervalNeg_eq] using hne
  rw [highParts_eq, ← mem_neg_iff, intervalNeg_neg,
    mem_lowParts_snd (mem_intervalNeg hx) (mem_intervalNeg hy) hne', inLow_neg, inLow_neg]

theorem highParts_snd_of_none (hx : x.high = none) (hy : y.high = none) :
    (highParts x y).2 = ⟨none, none⟩ := by
  rw [highParts_eq,
    lowParts_snd_of_none (by simp [intervalNeg_eq, hx]) (by simp [intervalNeg_eq, hy])]
  rfl

theorem mem_intersection (hx : a ∈ x) (hy : a ∈ y) :
    n ∈ (⟨(lowParts x y).1, (highParts x y).1⟩ : Interval) ↔ n ∈ x ∧ n ∈ y := by
  refine (and_congr (lowParts_fst hx hy) (highParts_fst hx hy)).trans ?_
  exact and_and_and_comm

theorem intersection_eq_none_iff (ha : a ∈ x) (hb : b ∈ y) :
    (intervalIntersectionDifference x y).1 = none ↔ ∀ n, n ∈ x → n ∉ y := by
  rw [intersectionDifference_eq]
  split_ifs with h
  · obtain ⟨c, hx, hy⟩ := (tests_iff ha hb).1 h
    exact ⟨nofun, fun hdisj => absurd hy (hdisj c hx)⟩
  · exact ⟨fun _ n hx hy => h ((tests_iff ha hb).2 ⟨n, hx, hy⟩), fun _ => rfl⟩

theorem mem_of_intersection_eq (ha : a ∈ x) (hb : b ∈ y)
    (h : (intervalIntersectionDifference x y).1 = some z) : n ∈ z ↔ n ∈ x ∧ n ∈ y := by
  rw [intersectionDifference_eq] at h
  split_ifs at h with htest
  · obtain ⟨c, hx, hy⟩ := (tests_iff ha hb).1 htest
    cases h
    exact mem_intersection hx hy

theorem inHigh_of_not_inLow {c : ℚ} (hx : c ∈ x) (hy : c ∈ y) (h : ¬(x.InLow n ∧ y.InLow n)) :
    x.InHigh n ∧ y.InHigh n := by
  have hlt : n < c := by
    rcases not_and_or.1 h with h | h
    · exact Interval.lt_of_not_inLow h hx
    · exact Interval.lt_of_not_inLow h hy
  exact ⟨Interval.InHigh.anti (x := x) hx.2 hlt.le, Interval.InHigh.anti (x := y) hy.2 hlt.le⟩

theorem mem_difference (hx : a ∈ x) (hy : a ∈ y) (hlow : ¬(x.low = none ∧ y.low = none))
    (hhigh : ¬(x.high = none ∧ y.high = none)) :
    n ∈ (lowParts x y).2 ∨ n ∈ (highParts x y).2 ↔ (n ∈ x ∨ n ∈ y) ∧ ¬(n ∈ x ∧ n ∈ y) := by
  rw [mem_lowParts_snd hx hy hlow, mem_highParts_snd hx hy hhigh]
  have hside := inHigh_of_not_inLow (n := n) hx hy
  have hmem (z : Interval) : n ∈ z ↔ z.InLow n ∧ z.InHigh n := Iff.rfl
  rw [hmem, hmem]
  tauto

theorem mem_difference_of_none (h : x.low = none ∧ y.low = none ∨ x.high = none ∧ y.high = none) :
    a ∈ (lowParts x y).2 ∨ a ∈ (highParts x y).2 := by
  rcases h with h | h
  · rw [lowParts_snd_of_none h.1 h.2]
    exact Or.inl (mem_unbounded a)
  · rw [highParts_snd_of_none h.1 h.2]
    exact Or.inr (mem_unbounded a)

/-- The second value is two intervals with exactly the numbers of one of `x` and `y`. -/
def DifferenceExact (x y : Interval) : Prop :=
  ∃ l r, (intervalIntersectionDifference x y).2 = [l, r] ∧ ∀ n, n ∈ l ∨ n ∈ r ↔ (n ∈ x ∨ n ∈ y) ∧
    ¬(n ∈ x ∧ n ∈ y)

/-- The difference of two intervals that meet. -/
theorem interval_difference_exact_iff (x y : Interval) (h : ∃ a, a ∈ x ∧ a ∈ y) :
    DifferenceExact x y ↔ ¬(x.low = none ∧ y.low = none) ∧ ¬(x.high = none ∧ y.high = none) := by
  obtain ⟨a, hx, hy⟩ := h
  have heq : (intervalIntersectionDifference x y).2 = [(lowParts x y).2, (highParts x y).2] := by
    rw [intersectionDifference_eq, if_pos ((tests_iff hx hy).2 ⟨a, hx, hy⟩)]
  refine ⟨?_, fun hne => ⟨_, _, heq, fun n => mem_difference hx hy hne.1 hne.2⟩⟩
  rintro ⟨l, r, hlist, hmem⟩
  rw [heq] at hlist
  cases hlist
  rw [← not_or]
  exact fun hnone => ((hmem a).1 (mem_difference_of_none hnone)).2 ⟨hx, hy⟩

theorem interval_difference_exact_iff_closed :
    DifferenceExact ⟨some (.closed 1), some (.closed 5)⟩ ⟨some (.closed (-1)), some (.strict 3)⟩ ↔
      ¬((some (.closed 1) : Option Bound) = none ∧ (some (.closed (-1)) : Option Bound) = none) ∧
        ¬((some (.closed 5) : Option Bound) = none ∧ (some (.strict 3) : Option Bound) = none) :=
  interval_difference_exact_iff ⟨some (.closed 1), some (.closed 5)⟩ ⟨some (.closed (-1)),
    some (.strict 3)⟩ ⟨2, by decide, by decide⟩

/-- Two intervals without a lower bound: their left remainder is of all numbers. -/
theorem not_interval_difference_exact : ¬∀ x y : Interval, (∃ a, a ∈ x ∧ a ∈ y) →
    DifferenceExact x y := by
  intro h
  obtain ⟨l, r, hlist, hmem⟩ :=
    h ⟨none, some (.closed 0)⟩ ⟨none, some (.closed 1)⟩ ⟨0, by decide, by decide⟩
  have hl : l = ⟨none, none⟩ := by
    have : (intervalIntersectionDifference ⟨none, some (.closed 0)⟩ ⟨none,
        some (.closed 1)⟩).2.head? = some ⟨none, none⟩ := by decide
    rw [hlist] at this
    exact some_inj.1 this
  have := (hmem 0).1 (Or.inl (hl ▸ ⟨nofun, nofun⟩))
  exact this.2 ⟨by decide, by decide⟩

theorem intervalLt_iff (hx : a ∈ x) (hy : b ∈ y) : intervalLt x y = true ↔ ∀ a ∈ x,
    ∀ b ∈ y, a < b := by
  unfold intervalLt
  split
  · rename_i left right hleft hright
    have hhigh (n : ℚ) : x.InHigh n ↔ left.Above n := by simp [Interval.InHigh, hleft]
    have hlow (n : ℚ) : y.InLow n ↔ right.Below n := by simp [Interval.InLow, hright]
    have hle {a b : ℚ} (ha : a ∈ x) (hb : b ∈ y) : a ≤ left.value ∧ right.value ≤ b :=
      ⟨((hhigh a).1 ha.2).1, ((hlow b).1 hb.1).1⟩
    split_ifs with hgt hlt
    · obtain ⟨t, ht, ht'⟩ := exists_between hgt
      obtain ⟨m, hm, htm⟩ := Interval.exists_mem_gt hx (n := t) fun c hc => by
        rw [hleft] at hc
        exact some_inj.1 hc ▸ ht'
      obtain ⟨k, hk, hkt⟩ := Interval.exists_mem_lt hy (n := t) fun c hc => by
        rw [hright] at hc
        exact some_inj.1 hc ▸ ht
      exact ⟨nofun, fun h => absurd (h m hm k hk) (hkt.trans htm).not_gt⟩
    · exact ⟨fun _ a ha b hb => ((hle ha hb).1.trans_lt hlt).trans_le (hle ha hb).2, fun _ => rfl⟩
    · have heq : left.value = right.value := le_antisymm (not_lt.1 hgt) (not_lt.1 hlt)
      rw [Bool.or_eq_true]
      refine ⟨?_, fun h => ?_⟩
      · rintro (hs | hs) a ha b hb
        · exact (((hhigh a).1 ha.2).2 hs).trans_le (heq ▸ (hle ha hb).2)
        · exact (hle ha hb).1.trans_lt (heq ▸ ((hlow b).1 hb.1).2 hs)
      by_contra hs
      rw [not_or, Bool.not_eq_true, Bool.not_eq_true] at hs
      have hl : left.value ∈ x :=
        Interval.mem_of_inHigh ((hhigh _).2 ⟨le_rfl, by simp [hs.1]⟩) hx (hle hx hy).1
      have hr : right.value ∈ y :=
        Interval.mem_of_inLow ((hlow _).2 ⟨le_rfl, by simp [hs.2]⟩) hy (hle hx hy).2
      exact absurd (h _ hl _ hr) heq.not_lt
  · rename_i hnone
    refine ⟨nofun, fun h => ?_⟩
    cases hhigh : x.high with
    | none =>
      obtain ⟨m, hm, hbm⟩ := Interval.exists_mem_gt hx (n := b) (by simp [hhigh])
      exact absurd (h m hm b hy) hbm.not_gt
    | some left =>
      have hlow : y.low = none := eq_none_iff_forall_ne_some.2 fun right => hnone left right hhigh
      obtain ⟨m, hm, hma⟩ := Interval.exists_mem_lt hy (n := a) (by simp [hlow])
      exact absurd (h a hx m hm) hma.not_gt

/-! ## Unions -/

theorem intersectP_iff (hx : a ∈ x) (hy : b ∈ y) : intervalIntersectP x y = true ↔ ∃ c,
    c ∈ x ∧ c ∈ y := by
  rw [← tests_iff hx hy, intervalIntersectP, intersectionDifference_eq]
  split_ifs with h <;> simp [h]

theorem adjacent_spec (hx : a ∈ x) (hy : b ∈ y) (h : adjacent y.low x.high = true) :
    ∃ v, (∀ n < v, x.InHigh n) ∧ (∀ n > v, y.InLow n) ∧ (∀ n, x.InHigh n → n ≤ v) ∧
      (∀ n, y.InLow n → v ≤ n) ∧ (v ∈ x ∨ v ∈ y) := by
  unfold adjacent at h
  split at h
  · rename_i lo hi hlo hhi
    rw [Bool.and_eq_true, decide_eq_true_iff, Bool.or_eq_true] at h
    obtain ⟨heq, hclosed⟩ := h
    have hhigh (n : ℚ) : x.InHigh n ↔ hi.Above n := by simp [Interval.InHigh, hhi]
    have hlow (n : ℚ) : y.InLow n ↔ lo.Below n := by simp [Interval.InLow, hlo]
    refine ⟨hi.value, fun n hn => (hhigh n).2 (Bound.above_of_lt hn),
      fun n hn => (hlow n).2 (Bound.below_of_lt (heq ▸ hn)),
      fun n hn => ((hhigh n).1 hn).1, fun n hn => heq ▸ ((hlow n).1 hn).1, ?_⟩
    rcases hclosed with hs | hs
    · refine Or.inr (Interval.mem_of_inLow ((hlow _).2 ⟨heq.le, fun h => by simp [h] at hs⟩) hy ?_)
      exact heq ▸ ((hlow b).1 hy.1).1
    · exact Or.inl (Interval.mem_of_inHigh ((hhigh _).2 ⟨le_rfl, fun h => by simp [h] at hs⟩) hx
        ((hhigh a).1 hx.2).1)
  · cases h

theorem mem_or_mem_of_common {c : ℚ} (hx : c ∈ x) (hy : c ∈ y) (hlow : x.InLow n ∨ y.InLow n)
    (hhigh : x.InHigh n ∨ y.InHigh n) : n ∈ x ∨ n ∈ y := by
  rcases le_total n c with hle | hle
  · exact hlow.imp (fun h => Interval.mem_of_inLow h hx hle) fun h => Interval.mem_of_inLow h hy hle
  · exact hhigh.imp (fun h => Interval.mem_of_inHigh h hx hle) fun h =>
      Interval.mem_of_inHigh h hy hle

theorem mem_or_mem_of_adjacent (hx : a ∈ x) (hy : b ∈ y) (h : adjacent y.low x.high = true)
    (hlow : x.InLow n ∨ y.InLow n) (hhigh : x.InHigh n ∨ y.InHigh n) : n ∈ x ∨ n ∈ y := by
  obtain ⟨v, hbelow, habove, hxv, hyv, hv⟩ := adjacent_spec hx hy h
  rcases lt_trichotomy n v with hlt | rfl | hgt
  · rcases hlow with hl | hl
    · exact Or.inl ⟨hl, hbelow n hlt⟩
    · exact absurd (hyv n hl) hlt.not_ge
  · exact hv
  · rcases hhigh with hh | hh
    · exact absurd (hxv n hh) hgt.not_ge
    · exact Or.inr ⟨habove n hgt, hh⟩

theorem mem_mergePair_iff (hx : a ∈ x) (hy : b ∈ y) (hz : intervalMergePair x y = some z) :
    n ∈ z ↔ n ∈ x ∨ n ∈ y := by
  refine ⟨fun h => ?_, mem_mergePair hz⟩
  unfold intervalMergePair at hz
  split_ifs at hz with htest
  cases hz
  have hlow : x.InLow n ∨ y.InLow n := below_selectBound.1 h.1
  have hhigh : x.InHigh n ∨ y.InHigh n := above_selectBound.1 h.2
  rw [Bool.or_eq_true, intersectP_iff hx hy, intervalAdjacentP, Bool.or_eq_true] at htest
  rcases htest with ⟨c, hcx, hcy⟩ | hadj | hadj
  · exact mem_or_mem_of_common hcx hcy hlow hhigh
  · exact mem_or_mem_of_adjacent hx hy hadj hlow hhigh
  · exact (mem_or_mem_of_adjacent hy hx hadj hlow.symm hhigh.symm).symm

theorem exists_gap (hlt : intervalLt x y = true) (hadj : adjacent y.low x.high = false) :
    ∃ v, (∀ a ∈ x, a < v) ∧ ∀ b ∈ y, v < b := by
  unfold intervalLt at hlt
  split at hlt
  · rename_i left right hleft hright
    have habove {a : ℚ} (ha : a ∈ x) : left.Above a := ha.2 left hleft
    have hbelow {b : ℚ} (hb : b ∈ y) : right.Below b := hb.1 right hright
    split_ifs at hlt with hgt hlt'
    · obtain ⟨v, hv, hv'⟩ := exists_between hlt'
      exact ⟨v, fun a ha => (habove ha).1.trans_lt hv, fun b hb => hv'.trans_le (hbelow hb).1⟩
    have heq : left.value = right.value := le_antisymm (not_lt.1 hgt) (not_lt.1 hlt')
    rw [hleft, hright] at hadj
    simp only [adjacent, heq, decide_true, Bool.true_and, Bool.or_eq_false_iff,
      Bool.not_eq_false'] at hadj
    exact ⟨left.value, fun a ha => (habove ha).2 hadj.2, fun b hb => heq ▸ (hbelow hb).2 hadj.1⟩
  · cases hlt

theorem mergePair_eq_none_iff (hx : a ∈ x) (hy : b ∈ y) :
    intervalMergePair x y = none ↔ ¬∃ w : Interval, ∀ n, n ∈ w ↔ n ∈ x ∨ n ∈ y := by
  refine ⟨?_, fun h => ?_⟩
  · rintro hnone ⟨w, hw⟩
    unfold intervalMergePair at hnone
    split_ifs at hnone with htest
    rw [Bool.or_eq_true, not_or, intersectP_iff hx hy, intervalAdjacentP, Bool.not_eq_true,
      Bool.or_eq_false_iff] at htest
    obtain ⟨hdisj, hadj1, hadj2⟩ := htest
    have hdisj' : ∀ n ∈ x, n ∉ y := fun n hnx hny => hdisj ⟨n, hnx, hny⟩
    -- a number between the two intervals is in every interval that has both
    have hgap {v : ℚ} (hv : v ∈ w) (hvx : v ∉ x) (hvy : v ∉ y) : False := ((hw v).1 hv).elim hvx hvy
    have hxw := (hw a).2 (Or.inl hx)
    have hyw := (hw b).2 (Or.inr hy)
    rcases lt_trichotomy a b with hlt | rfl | hgt
    · obtain ⟨v, hxv, hvy⟩ :=
        exists_gap ((intervalLt_iff hx hy).2 (Interval.forall_lt_of_disjoint hdisj' hx hy hlt))
          hadj1
      exact hgap (Interval.mem_of_le_of_le hxw hyw (hxv a hx).le (hvy b hy).le) (fun h =>
        (hxv v h).false) fun h => (hvy v h).false
    · exact hdisj' a hx hy
    · have hdisj'' : ∀ n ∈ y, n ∉ x := fun n hny hnx => hdisj' n hnx hny
      obtain ⟨v, hyv, hvx⟩ :=
        exists_gap ((intervalLt_iff hy hx).2 (Interval.forall_lt_of_disjoint hdisj'' hy hx hgt))
          hadj2
      exact hgap (Interval.mem_of_le_of_le hyw hxw (hyv b hy).le (hvx a hx).le) (fun h =>
        (hvx v h).false) fun h => (hyv v h).false
  · cases hz : intervalMergePair x y with
    | none => rfl
    | some z => exact absurd ⟨z, fun n => mem_mergePair_iff hx hy hz⟩ h

theorem mem_hull (hx : a ∈ x) (hy : b ∈ y) (hlt : ∀ a ∈ x, ∀ b ∈ y, a < b) :
    (∀ n, n ∈ x ∨ n ∈ y → n ∈ (⟨x.low, y.high⟩ : Interval)) ∧
      ∀ w : Interval, (∀ n, n ∈ x ∨ n ∈ y → n ∈ w) → ∀ n ∈ (⟨x.low, y.high⟩ : Interval), n ∈ w := by
  refine ⟨?_, fun w hw n hn => ?_⟩
  · rintro n (h | h)
    · exact ⟨h.1, Interval.InHigh.anti (x := y) hy.2 (hlt n h b hy).le⟩
    · exact ⟨Interval.InLow.mono (x := x) hx.1 (hlt a hx n h).le, h.2⟩
  rcases le_or_gt n a with hna | han
  · exact hw n (Or.inl (Interval.mem_of_inLow hn.1 hx hna))
  · rcases le_or_gt b n with hbn | hnb
    · exact hw n (Or.inr (Interval.mem_of_inHigh hn.2 hy hbn))
    · exact Interval.mem_of_le_of_le (hw a (Or.inl hx)) (hw b (Or.inr hy)) han.le hnb.le

theorem approximateUnion_spec (hx : a ∈ x) (hy : b ∈ y) :
    (∀ n, n ∈ x ∨ n ∈ y → n ∈ intervalApproximateUnion x y) ∧
      ∀ w : Interval, (∀ n, n ∈ x ∨ n ∈ y → n ∈ w) → ∀ n ∈ intervalApproximateUnion x y, n ∈ w := by
  unfold intervalApproximateUnion
  split
  · rename_i z hz
    exact ⟨fun n => (mem_mergePair_iff hx hy hz).2,
      fun w hw n hn => hw n ((mem_mergePair_iff hx hy hz).1 hn)⟩
  rename_i hnone
  have hdisj : ∀ n ∈ y, n ∉ x := by
    intro n hny hnx
    obtain ⟨z, hz⟩ := mergePair_of_mem hnx hny
    cases hz.symm.trans hnone
  split_ifs with hlt
  · exact mem_hull hx hy ((intervalLt_iff hx hy).1 hlt)
  have hgt : b < a := by
    refine lt_of_not_ge fun hle => hlt ((intervalLt_iff hx hy).2 ?_)
    refine Interval.forall_lt_of_disjoint (fun n hnx hny => hdisj n hny hnx) hx hy
      (lt_of_le_of_ne hle ?_)
    rintro rfl
    exact hdisj a hy hx
  have h := mem_hull hy hx (Interval.forall_lt_of_disjoint hdisj hy hx hgt)
  exact ⟨fun n hn => h.1 n hn.symm, fun w hw => h.2 w fun n hn => hw n hn.symm⟩

/-- The set operations of two intervals with members. -/
theorem interval_sets_exact (x y : Interval) (hx : ∃ a, a ∈ x) (hy : ∃ b, b ∈ y) :
    (∀ z, (intervalIntersectionDifference x y).1 = some z → ∀ n, n ∈ z ↔ n ∈ x ∧ n ∈ y) ∧
      ((intervalIntersectionDifference x y).1 = none ↔ ∀ n, n ∈ x → n ∉ y) ∧
      (∀ z, intervalMergePair x y = some z → ∀ n, n ∈ z ↔ n ∈ x ∨ n ∈ y) ∧
      (intervalMergePair x y = none ↔ ¬∃ w : Interval, ∀ n, n ∈ w ↔ n ∈ x ∨ n ∈ y) ∧
      ((∀ n, n ∈ x ∨ n ∈ y → n ∈ intervalApproximateUnion x y) ∧
        ∀ w : Interval, (∀ n, n ∈ x ∨ n ∈ y → n ∈ w) → ∀ n ∈ intervalApproximateUnion x y, n ∈ w) ∧
      (intervalLt x y = true ↔ ∀ a ∈ x, ∀ b ∈ y, a < b) := by
  obtain ⟨a, ha⟩ := hx
  obtain ⟨b, hb⟩ := hy
  exact ⟨fun z hz n => mem_of_intersection_eq ha hb hz, intersection_eq_none_iff ha hb,
    fun z hz n => mem_mergePair_iff ha hb hz,
    mergePair_eq_none_iff ha hb, approximateUnion_spec ha hb, intervalLt_iff ha hb⟩

theorem interval_sets_exact_adjacent :
    let x : Interval := ⟨some (.closed 0), some (.strict 1)⟩
    let y : Interval := ⟨some (.closed 1), none⟩
    (∀ z, (intervalIntersectionDifference x y).1 = some z → ∀ n, n ∈ z ↔ n ∈ x ∧ n ∈ y) ∧
      ((intervalIntersectionDifference x y).1 = none ↔ ∀ n, n ∈ x → n ∉ y) ∧
      (∀ z, intervalMergePair x y = some z → ∀ n, n ∈ z ↔ n ∈ x ∨ n ∈ y) ∧
      (intervalMergePair x y = none ↔ ¬∃ w : Interval, ∀ n, n ∈ w ↔ n ∈ x ∨ n ∈ y) ∧
      ((∀ n, n ∈ x ∨ n ∈ y → n ∈ intervalApproximateUnion x y) ∧
        ∀ w : Interval, (∀ n, n ∈ x ∨ n ∈ y → n ∈ w) → ∀ n ∈ intervalApproximateUnion x y, n ∈ w) ∧
      (intervalLt x y = true ↔ ∀ a ∈ x, ∀ b ∈ y, a < b) :=
  interval_sets_exact ⟨some (.closed 0), some (.strict 1)⟩ ⟨some (.closed 1),
    none⟩ ⟨0, by decide⟩ ⟨1, by decide⟩

end Sbcl.Compiler
