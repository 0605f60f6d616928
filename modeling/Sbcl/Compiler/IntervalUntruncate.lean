import Sbcl.Compiler.IntervalCorrect
import Sbcl.Integer

/-!
# Interval arithmetic: the reverse of `truncate` (compiler/srctran.lisp)

* `intervalUntruncate` : what is divided, from the interval of the truncated quotient and the
  interval of the divisor;
* `truncate_bounds` : a number is between products of its divisor and the neighbours of its
  quotient;
* `untruncate_plus` : the result for a divisor of one sign;
* `intervalUntruncate_sound` : the two parts of a divisor of both signs share zero or are adjacent
  there.
-/

namespace Sbcl.Compiler

open Intervals Int

/-- `interval-range-info>>`. -/
def intervalRangeInfoGtGt (x : Interval) (point : ℚ) : Option Sign :=
  if ∃ lo ∈ x.low, point < lo.value then some .plus
  else if ∃ hi ∈ x.high, hi.value < point then some .minus
  else none

/-- The intervals `add` and `sub`. -/
def addSub : Option Sign → Interval × Interval
  | none => (⟨some (.closed (-1)), some (.closed 1)⟩, ⟨some (.closed 1), some (.closed (-1))⟩)
  | some .plus => (⟨some (.closed 0), some (.closed 1)⟩, ⟨some (.closed 0), some (.closed (-1))⟩)
  | some .minus => (⟨some (.closed (-1)), some (.closed 0)⟩, ⟨some (.closed 1), some (.closed 0)⟩)

def intervalUntruncate (n d : Interval) : Except Failure Interval :=
  if intervalRangeInfo d 0 = none then do
    merged (← intervalUntruncate n (intervalSplit 0 d true true).1)
      (← intervalUntruncate n (intervalSplit 0 d true true).2)
  else if intervalRangeInfo d 0 = some .minus then do
    return intervalNeg (← intervalUntruncate n (intervalNeg d))
  else do
    let (add, sub) := addSub (intervalRangeInfoGtGt n 0)
    return intervalAdd (← intervalMul d (intervalAdd n add)) sub
termination_by signRank d
decreasing_by
  · exact signRank_split_left ‹_›
  · exact signRank_split_right ‹_›
  · exact signRank_neg ‹_›

variable {n d m z : Interval} {x b : ℤ}

theorem truncate_bounds (hb : 0 < b) (x : ℤ) : b * (truncate x b - 1) + 1 ≤ x ∧
    x ≤ b * (truncate x b + 1) - 1 := by
  have hsum := mul_tdiv_add_tmod x b
  have hlt := tmod_lt_of_pos x hb
  have hgt : -b < x.tmod b := by
    have h := tmod_lt_of_pos (-x) hb
    rw [neg_tmod] at h
    omega
  unfold truncate
  rw [mul_sub, mul_add, mul_one]
  omega

theorem le_of_truncate_pos (hb : 0 < b) (h : 0 < truncate x b) : b * truncate x b ≤ x := by
  have hsum := mul_tdiv_add_tmod x b
  have hx : 0 ≤ x := by
    by_contra hc
    have hle := Int.tdiv_nonneg (show 0 ≤ -x by omega) hb.le
    rw [Int.neg_tdiv] at hle
    exact h.not_ge (neg_nonneg.1 hle)
  have hrem := tmod_nonneg b hx
  unfold truncate
  omega

theorem le_of_truncate_neg (hb : 0 < b) (h : truncate x b < 0) : x ≤ b * truncate x b := by
  have hneg : truncate (-x) b = -truncate x b := Int.neg_tdiv x b
  have hle := le_of_truncate_pos (x := -x) hb (by omega)
  rw [hneg, mul_neg] at hle
  omega

/-! ## Divisors of one sign -/

theorem mem_intervalAdd_pair {p p' c c' a : ℚ} (hp : p ∈ m) (hp' : p' ∈ m) (hlow : p + c ≤ a)
    (hhigh : a ≤ p' + c') : a ∈ intervalAdd m ⟨some (.closed c), some (.closed c')⟩ := by
  refine ⟨fun r hr => ?_, fun r hr => ?_⟩
  · obtain ⟨lo, hlo, e, he, rfl⟩ := mem_boundBinop hr
    cases he
    have h := (hp.1 lo hlo).add (Bound.below_closed.2 (le_refl c))
    exact ⟨h.1.trans hlow, fun hs => (h.2 hs).trans_le hlow⟩
  · obtain ⟨hi, hhi, e, he, rfl⟩ := mem_boundBinop hr
    cases he
    have h := (hp'.2 hi hhi).add (Bound.above_closed.2 (le_refl c'))
    exact ⟨hhigh.trans h.1, fun hs => hhigh.trans_lt (h.2 hs)⟩

theorem quotient_pos (h : intervalRangeInfoGtGt n 0 = some .plus) {q : ℤ}
    (hq : (q : ℚ) ∈ n) : 0 < q := by
  unfold intervalRangeInfoGtGt at h
  split_ifs at h with hlo
  · obtain ⟨lo, hmem, h0⟩ := hlo
    exact_mod_cast h0.trans_le (hq.1 lo hmem).le
  · cases h

theorem quotient_neg (h : intervalRangeInfoGtGt n 0 = some .minus) {q : ℤ}
    (hq : (q : ℚ) ∈ n) : q < 0 := by
  unfold intervalRangeInfoGtGt at h
  split_ifs at h with hlo hhi
  · cases h
  · obtain ⟨hi, hmem, h0⟩ := hhi
    exact_mod_cast (hq.2 hi hmem).le.trans_lt h0

theorem mem_addSub {q : ℤ} (hb : 0 < b) (hd : (b : ℚ) ∈ d) (hq : truncate x b = q)
    (hn : (q : ℚ) ∈ n)
    (hm : ∀ a ∈ d, ∀ c ∈ intervalAdd n (addSub (intervalRangeInfoGtGt n 0)).1, a * c ∈ m) :
    (x : ℚ) ∈ intervalAdd m (addSub (intervalRangeInfoGtGt n 0)).2 := by
  obtain ⟨hlow, hhigh⟩ := truncate_bounds hb x
  rw [hq] at hlow hhigh
  cases hsign : intervalRangeInfoGtGt n 0 with
  | none =>
    rw [hsign] at hm
    refine mem_intervalAdd_pair (hm _ hd _ (mem_intervalAdd hn (b := -1) ?_))
      (hm _ hd _ (mem_intervalAdd hn (b := 1) ?_)) ?_ ?_
    · exact ⟨by simp [addSub, Bound.Below], by simp [addSub, Bound.Above]⟩
    · exact ⟨by simp [addSub, Bound.Below], by simp [addSub, Bound.Above]⟩
    · exact_mod_cast hlow
    · exact_mod_cast hhigh
  | some s =>
    rw [hsign] at hm
    cases s with
    | plus =>
      have hle := le_of_truncate_pos (x := x) hb (hq ▸ quotient_pos hsign hn)
      rw [hq] at hle
      refine mem_intervalAdd_pair (hm _ hd _ (mem_intervalAdd hn (b := 0) ?_))
        (hm _ hd _ (mem_intervalAdd hn (b := 1) ?_)) ?_ ?_
      · exact ⟨by simp [addSub, Bound.Below], by simp [addSub, Bound.Above]⟩
      · exact ⟨by simp [addSub, Bound.Below], by simp [addSub, Bound.Above]⟩
      · rw [add_zero, add_zero]
        exact_mod_cast hle
      · exact_mod_cast hhigh
    | minus =>
      have hle := le_of_truncate_neg (x := x) hb (hq ▸ quotient_neg hsign hn)
      rw [hq] at hle
      refine mem_intervalAdd_pair (hm _ hd _ (mem_intervalAdd hn (b := -1) ?_))
        (hm _ hd _ (mem_intervalAdd hn (b := 0) ?_)) ?_ ?_
      · exact ⟨by simp [addSub, Bound.Below], by simp [addSub, Bound.Above]⟩
      · exact ⟨by simp [addSub, Bound.Below], by simp [addSub, Bound.Above]⟩
      · exact_mod_cast hlow
      · rw [add_zero, add_zero]
        exact_mod_cast hle

theorem intervalUntruncate_plus (h : intervalRangeInfo d 0 = some .plus)
    (hm : intervalMul d (intervalAdd n (addSub (intervalRangeInfoGtGt n 0)).1) = .ok m) :
    intervalUntruncate n d = .ok (intervalAdd m (addSub (intervalRangeInfoGtGt n 0)).2) := by
  rw [intervalUntruncate, h]
  simp [hm]

theorem intervalUntruncate_minus (h : intervalRangeInfo d 0 = some .minus)
    (hz : intervalUntruncate n (intervalNeg d) = .ok z) :
    intervalUntruncate n d = .ok (intervalNeg z) := by
  rw [intervalUntruncate, h]
  simp [hz]

/-- `z` has what is divided by a member of `d` to a member of `n`. -/
def UntruncateSound (n d z : Interval) : Prop :=
  ∀ x b : ℤ, b ≠ 0 → (b : ℚ) ∈ d → ((truncate x b : ℤ) : ℚ) ∈ n → (x : ℚ) ∈ z

theorem pos_of_mem_plus (h : intervalRangeInfo d 0 = some .plus) (hb : b ≠ 0)
    (hd : (b : ℚ) ∈ d) : 0 < b :=
  lt_of_le_of_ne (by exact_mod_cast nonneg_of_mem h hd) hb.symm

theorem untruncate_plus (n : Interval) (h : intervalRangeInfo d 0 = some .plus) :
    ∃ z, intervalUntruncate n d = .ok z ∧ UntruncateSound n d z := by
  obtain ⟨m, hm, hsound⟩ := mulSound d (intervalAdd n (addSub (intervalRangeInfoGtGt n 0)).1)
  refine ⟨_, intervalUntruncate_plus h hm, fun x b hb hd hn => ?_⟩
  exact mem_addSub (pos_of_mem_plus h hb hd) hd rfl hn hsound

theorem untruncate_minus (n : Interval) (h : intervalRangeInfo d 0 = some .minus) :
    ∃ z, intervalUntruncate n d = .ok z ∧ UntruncateSound n d z := by
  obtain ⟨z, hz, hsound⟩ := untruncate_plus n (rangeInfo_neg h)
  refine ⟨_, intervalUntruncate_minus h hz, fun x b hb hd hn => ?_⟩
  have hneg := hsound (-x) (-b) (neg_ne_zero.2 hb) (by simpa using mem_intervalNeg hd) ?_
  · simpa using mem_intervalNeg hneg
  · rwa [truncate, Int.neg_tdiv_neg]

/-! ## Divisors of both signs -/

/-- The bounds that an interval of integers has: integers that belong to it. -/
def IsIntegerBounds (z : Interval) : Prop := ∀ r, r ∈ z.low ∨ r ∈ z.high → ∃ k : ℤ, r = .closed k

theorem one_mem (h : intervalRangeInfo d 0 = none) (hd : IsIntegerBounds d) : ((1 : ℤ) : ℚ) ∈ d ∧
    ((-1 : ℤ) : ℚ) ∈ d := by
  obtain ⟨hneg, hpos⟩ := straddles h
  refine ⟨⟨fun r hr => ?_, fun r hr => ?_⟩, fun r hr => ?_, fun r hr => ?_⟩
  · exact Bound.below_of_lt ((hneg r hr).trans (by norm_num))
  · obtain ⟨k, rfl⟩ := hd r (.inr hr)
    have hk : 0 < k := Int.cast_pos.1 (hpos _ hr)
    exact Bound.below_closed.2 (cast_le.2 hk)
  · obtain ⟨k, rfl⟩ := hd r (.inl hr)
    have hk : k < 0 := cast_lt_zero.1 (hneg _ hr)
    exact Bound.above_closed.2 (cast_le.2 (by omega))
  · exact Bound.above_of_lt (lt_trans (by norm_num) (hpos r hr))

theorem zero_mem_quotient (h : intervalRangeInfoGtGt n 0 = none) (hn : IsIntegerBounds n) :
    (0 : ℚ) ∈ n := by
  unfold intervalRangeInfoGtGt at h
  split_ifs at h with hlo hhi
  push Not at hlo hhi
  refine ⟨fun r hr => ⟨hlo r hr, ?_⟩, fun r hr => ⟨hhi r hr, ?_⟩⟩
  · obtain ⟨k, rfl⟩ := hn r (.inl hr)
    exact nofun
  · obtain ⟨k, rfl⟩ := hn r (.inr hr)
    exact nofun

theorem rangeInfo_addSub_plus (h : intervalRangeInfoGtGt n 0 = some .plus) :
    ∃ b, (intervalAdd n (addSub (some .plus)).1).low = some b ∧
      intervalRangeInfo (intervalAdd n (addSub (some .plus)).1) 0 = some .plus := by
  unfold intervalRangeInfoGtGt at h
  split_ifs at h with hlo hhi
  · obtain ⟨lo, hmem, h0⟩ := hlo
    have hlow : (intervalAdd n (addSub (some .plus)).1).low =
        some (Bound.op (· + ·) lo (.closed 0)) := by
      simp [intervalAdd, addSub, boundBinop, Option.mem_def.1 hmem]
    exact ⟨_, hlow, rangeInfo_eq_plus hlow (by simpa using h0.le)⟩
  · cases h

theorem rangeInfo_addSub_minus (h : intervalRangeInfoGtGt n 0 = some .minus) :
    ∃ b, (intervalAdd n (addSub (some .minus)).1).high = some b ∧
      intervalRangeInfo (intervalAdd n (addSub (some .minus)).1) 0 = some .minus := by
  unfold intervalRangeInfoGtGt at h
  split_ifs at h with hlo hhi
  · cases h
  obtain ⟨hi, hmem, h0⟩ := hhi
  have hhigh : (intervalAdd n (addSub (some .minus)).1).high =
      some (Bound.op (· + ·) hi (.closed 0)) := by
    simp [intervalAdd, addSub, boundBinop, Option.mem_def.1 hmem]
  refine ⟨_, hhigh, ?_⟩
  unfold intervalRangeInfo
  rw [if_neg, if_pos ⟨_, hhigh, by simpa using h0.le⟩]
  rintro ⟨r, hr, hr0⟩
  obtain ⟨lo, hlomem, e, he, rfl⟩ := mem_boundBinop hr
  cases he
  refine hlo ⟨lo, hlomem, ?_⟩
  rw [Bound.value_op, Bound.value_closed] at hr0
  linarith

/-- The result for a quotient of one sign and a divisor from zero on begins at zero, turned around
if need be. -/
theorem untruncate_low {s : Sign} {p : Bound} (hs : intervalRangeInfoGtGt n 0 = some s)
    (hlow : d.low = some p) (hp : p.value = 0) :
    ∃ z r, intervalUntruncate n d = .ok (s.apply z) ∧ z.low = some r ∧ r.value = 0 ∧
      (p = .closed 0 → r = .closed 0) := by
  have hd := rangeInfo_eq_plus hlow hp.ge
  have hmul : ∀ b, ∃ r, boundMul (some p) (some b) = some r ∧ r.value = 0 ∧
      (p = .closed 0 → r = .closed 0) := by
    intro b
    cases p with
    | closed k =>
      rw [Bound.value_closed] at hp
      subst hp
      exact ⟨_, boundMul_zero_left b, rfl, fun _ => rfl⟩
    | strict k =>
      rw [Bound.value_strict] at hp
      subst hp
      obtain ⟨r, hr, hr0⟩ := boundMul_strict_left b
      exact ⟨r, hr, hr0, nofun⟩
  cases s with
  | plus =>
    obtain ⟨b, hb, hsign⟩ := rangeInfo_addSub_plus hs
    obtain ⟨r, hr, hr0, hrclosed⟩ := hmul b
    have hz := intervalUntruncate_plus hd (n := n) (hs ▸ intervalMul_plus hd hsign)
    rw [hs] at hz
    refine ⟨_, Bound.op (· + ·) r (.closed 0), hz, ?_, by simp [hr0], ?_⟩
    · show boundBinop _ (boundMul d.low _) _ = _
      rw [hlow, hb, hr]
      rfl
    · intro h
      rw [hrclosed h]
      simp [Bound.op, Bound.of]
  | minus =>
    obtain ⟨b, hb, hsign⟩ := rangeInfo_addSub_minus hs
    obtain ⟨r, hr, hr0, hrclosed⟩ := hmul b.neg
    have hz := intervalUntruncate_plus hd (n := n) (hs ▸ intervalMul_minus_right hd hsign)
    rw [hs, ← intervalNeg_neg (intervalAdd _ _)] at hz
    refine ⟨_, (Bound.op (· + ·) r.neg (.closed 0)).neg, hz, ?_, by simp [hr0], ?_⟩
    · show Option.map Bound.neg
        (boundBinop _ (Option.map Bound.neg (boundMul d.low (Option.map Bound.neg _))) _) = _
      rw [hlow, hb, Option.map_some, hr]
      rfl
    · intro h
      rw [hrclosed h]
      simp [Bound.op, Bound.of, Bound.neg]

theorem merge_untruncate {z₁ z₂ : Interval} (h : intervalRangeInfo d 0 = none)
    (hd : IsIntegerBounds d) (hn : IsIntegerBounds n)
    (hz₁ : intervalUntruncate n (intervalSplit 0 d true true).1 = .ok z₁)
    (hsound₁ : UntruncateSound n (intervalSplit 0 d true true).1 z₁)
    (hz₂ : intervalUntruncate n (intervalSplit 0 d true true).2 = .ok z₂)
    (hsound₂ : UntruncateSound n (intervalSplit 0 d true true).2 z₂) :
    ∃ z, intervalMergePair z₁ z₂ = some z := by
  cases hs : intervalRangeInfoGtGt n 0 with
  | none =>
    obtain ⟨hone, hminus⟩ := one_mem h hd
    have hzero : ((truncate 0 1 : ℤ) : ℚ) ∈ n := by simpa using zero_mem_quotient hs hn
    have hzero' : ((truncate 0 (-1) : ℤ) : ℚ) ∈ n := by simpa using zero_mem_quotient hs hn
    exact mergePair_of_mem (hsound₁ 0 (-1) (by decide) (mem_split_left hminus (by norm_num)) hzero')
      (hsound₂ 0 1 (by decide) (mem_split_right hone (by norm_num)) hzero)
  | some s =>
    obtain ⟨u, r, hu, hulow, -, hr⟩ := untruncate_low hs (neg_split_low d) rfl
    obtain ⟨v, r', hv, hvlow, hr', -⟩ :=
      untruncate_low (d := (intervalSplit 0 d true true).2) hs rfl rfl
    rw [intervalUntruncate_minus (rangeInfo_split_left h) hu] at hz₁
    rw [hv] at hz₂
    cases hz₁
    cases hz₂
    have hadj := adjacent_signs s (hr rfl ▸ hulow) hvlow hr'
    apply mergePair_of_adjacent
    cases s with
    | plus => exact hadj
    | minus => rwa [Sign.apply, intervalNeg_neg]

theorem untruncate_both (h : intervalRangeInfo d 0 = none) (hd : IsIntegerBounds d)
    (hn : IsIntegerBounds n) : ∃ z, intervalUntruncate n d = .ok z ∧ UntruncateSound n d z := by
  obtain ⟨z₁, hz₁, hsound₁⟩ := untruncate_minus n (rangeInfo_split_left h)
  obtain ⟨z₂, hz₂, hsound₂⟩ := untruncate_plus n (rangeInfo_split_right d)
  obtain ⟨z, hz⟩ := merge_untruncate h hd hn hz₁ hsound₁ hz₂ hsound₂
  refine ⟨z, ?_, fun x b hb hmem hq => mem_mergePair hz ?_⟩
  · rw [intervalUntruncate, if_pos h, hz₁, hz₂]
    exact merged_eq hz
  · rcases le_or_gt (b : ℚ) 0 with hle | hlt
    · exact .inl (hsound₁ x b hb (mem_split_left hmem hle) hq)
    · exact .inr (hsound₂ x b hb (mem_split_right hmem hlt) hq)

/-- For integer intervals, whose bounds are closed, there is a result, and whatever is divided is in
it. -/
theorem intervalUntruncate_sound {n d : Interval} (hn : IsIntegerBounds n)
    (hd : IsIntegerBounds d) : ∃ z, intervalUntruncate n d = .ok z ∧
      ∀ x b : ℤ, b ≠ 0 → (b : ℚ) ∈ d → ((truncate x b : ℤ) : ℚ) ∈ n → (x : ℚ) ∈ z := by
  cases h : intervalRangeInfo d 0 with
  | none => exact untruncate_both h hd hn
  | some s =>
    cases s with
    | plus => exact untruncate_plus n h
    | minus => exact untruncate_minus n h

/-- What -7 to 7 divided by a number from -3 on can be. -/
theorem intervalUntruncate_sound_small : ∃ z,
    intervalUntruncate ⟨some (.closed (-7)), some (.closed 7)⟩ ⟨some (.closed (-3)), none⟩ = .ok z ∧
    ((-23 : ℤ) : ℚ) ∈ z := by
  have hn : IsIntegerBounds ⟨some (.closed (-7)), some (.closed 7)⟩ := by
    intro r h
    rcases h with h | h <;> cases h
    · exact ⟨-7, by norm_num⟩
    · exact ⟨7, by norm_num⟩
  have hd : IsIntegerBounds ⟨some (.closed (-3)), none⟩ := by
    intro r h
    rcases h with h | h <;> cases h
    exact ⟨-3, by norm_num⟩
  obtain ⟨z, hz, hsound⟩ := intervalUntruncate_sound hn hd
  exact ⟨z, hz, hsound (-23) (-3) (by decide) (by decide) (by decide)⟩

end Sbcl.Compiler
