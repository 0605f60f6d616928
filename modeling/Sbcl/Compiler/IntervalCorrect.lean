import Sbcl.Compiler.Interval

/-!
# Interval arithmetic: correctness

* `mem_intervalNeg`, `mem_intervalAdd`, `mem_intervalSub` : sums;
* `mergePair_of_mem`, `mergePair_of_closed` : two intervals with a common point, and two that meet
  at a closed bound, have a union, which `mem_mergePair` says contains both;
* `mulPlus`, `divPlus` : products and quotients of positive intervals, to which the others are
  reduced by signs;
* `interval_arithmetic_sound` : all of the operations.
-/

namespace Sbcl.Compiler

open Intervals Option

variable {x y z : Interval} {a b c : ℚ} {s t : Sign}

theorem intervalNeg_eq (x : Interval) :
    intervalNeg x = ⟨x.high.map Bound.neg, x.low.map Bound.neg⟩ := rfl

@[simp] theorem intervalNeg_neg (x : Interval) : intervalNeg (intervalNeg x) = x := by
  obtain ⟨lo, hi⟩ := x
  cases lo <;> cases hi <;> simp [intervalNeg_eq, Bound.neg_neg]

theorem mem_intervalNeg (h : a ∈ x) : -a ∈ intervalNeg x := by
  rw [intervalNeg_eq]
  refine ⟨fun b hb => ?_, fun b hb => ?_⟩
  · obtain ⟨c, hc, rfl⟩ := mem_map.1 hb
    exact Bound.below_neg (h.2 c hc)
  · obtain ⟨c, hc, rfl⟩ := mem_map.1 hb
    exact Bound.above_neg (h.1 c hc)

variable {p q : Option Bound} {r : Bound}

theorem mem_boundBinop {op : ℚ → ℚ → ℚ} (h : r ∈ boundBinop op p q) :
    ∃ b ∈ p, ∃ c ∈ q, r = Bound.op op b c := by
  cases p with
  | none => cases h
  | some b =>
    cases q with
    | none => cases h
    | some c =>
      cases h
      exact ⟨b, rfl, c, rfl, rfl⟩

theorem mem_intervalAdd (ha : a ∈ x) (hb : b ∈ y) : a + b ∈ intervalAdd x y := by
  refine ⟨fun r hr => ?_, fun r hr => ?_⟩
  · obtain ⟨b, hb', c, hc', rfl⟩ := mem_boundBinop hr
    exact (ha.1 b hb').add (hb.1 c hc')
  · obtain ⟨b, hb', c, hc', rfl⟩ := mem_boundBinop hr
    exact (ha.2 b hb').add (hb.2 c hc')

theorem mem_intervalSub (ha : a ∈ x) (hb : b ∈ y) : a - b ∈ intervalSub x y := by
  refine ⟨fun r hr => ?_, fun r hr => ?_⟩
  · obtain ⟨b, hb', c, hc', rfl⟩ := mem_boundBinop hr
    exact (ha.1 b hb').sub (hb.2 c hc')
  · obtain ⟨b, hb', c, hc', rfl⟩ := mem_boundBinop hr
    exact (ha.2 b hb').sub (hb.1 c hc')

/-! ## Signs and parts -/

theorem nonneg_of_plus (h : intervalRangeInfo x 0 = some .plus) : ∃ b, x.low = some b ∧
    0 ≤ b.value := by
  by_contra hc
  have hlo : ¬∃ lo ∈ x.low, 0 ≤ lo.value := fun ⟨b, hb, h0⟩ => hc ⟨b, hb, h0⟩
  unfold intervalRangeInfo at h
  rw [if_neg hlo] at h
  split_ifs at h
  cases h

theorem nonneg_of_mem (h : intervalRangeInfo x 0 = some .plus) (ha : a ∈ x) : 0 ≤ a := by
  obtain ⟨b, hb, h0⟩ := nonneg_of_plus h
  exact h0.trans (ha.1 b hb).1

theorem mem_split_left (ha : a ∈ x) (h0 : a ≤ 0) : a ∈ (intervalSplit 0 x true true).1 := by
  refine ⟨ha.1, fun b hb => ?_⟩
  cases hb
  exact Bound.above_closed.2 h0

theorem mem_split_right (ha : a ∈ x) (h0 : 0 < a) : a ∈ (intervalSplit 0 x true true).2 := by
  refine ⟨fun b hb => ?_, ha.2⟩
  cases hb
  exact Bound.below_of_lt h0

theorem straddles (h : intervalRangeInfo x 0 = none) : (∀ b ∈ x.low, b.value < 0) ∧ ∀ b ∈ x.high,
    0 < b.value := by
  unfold intervalRangeInfo at h
  split_ifs at h with hlo hhi
  push Not at hlo hhi
  exact ⟨hlo, hhi⟩

theorem zero_mem (h : intervalRangeInfo x 0 = none) : 0 ∈ x :=
  ⟨fun b hb => Bound.below_of_lt ((straddles h).1 b hb),
    fun b hb => Bound.above_of_lt ((straddles h).2 b hb)⟩

theorem exists_pos_lt (h : ∀ b ∈ p, 0 < b.value) : ∃ a, 0 < a ∧ ∀ b ∈ p, a < b.value := by
  cases p with
  | none => exact ⟨1, one_pos, nofun⟩
  | some u =>
    refine ⟨u.value / 2, half_pos (h u rfl), fun b hb => ?_⟩
    cases hb
    exact half_lt_self (h u rfl)

theorem exists_pos_mem (h : intervalRangeInfo x 0 = none) : ∃ a ∈ x, 0 < a := by
  obtain ⟨hlo, hhi⟩ := straddles h
  obtain ⟨a, ha0, ha⟩ := exists_pos_lt hhi
  exact ⟨a, ⟨fun b hb => Bound.below_of_lt ((hlo b hb).trans ha0),
    fun b hb => Bound.above_of_lt (ha b hb)⟩, ha0⟩

theorem containsP_of_mem (h : a ∈ x) : intervalContainsP a x = true := by
  obtain ⟨lo, hi⟩ := x
  obtain ⟨hlo, hhi⟩ := h
  unfold intervalContainsP
  cases lo with
  | none =>
    cases hi with
    | none => rfl
    | some u =>
      have hu := hhi u rfl
      cases u <;> grind [Bound.Above, Bound.value, Bound.isStrict]
  | some l =>
    have hl := hlo l rfl
    cases hi with
    | none => cases l <;> grind [Bound.Below, Bound.value, Bound.isStrict]
    | some u =>
      have hu := hhi u rfl
      cases l <;> cases u <;> grind [Bound.Below, Bound.Above, Bound.value, Bound.isStrict]

/-! ## Unions -/

theorem forall_selectBound {P : Bound → Prop} {lt gt : ℚ → ℚ → Bool}
    (hlt : ∀ b c : Bound, lt b.value c.value → P c → P b)
    (hgt : ∀ b c : Bound, gt b.value c.value → P b → P c) (heq : ∀ v w, ¬ lt v w → ¬ gt v w → v = w)
    (hweaken : ∀ b c : Bound, P b → c.value = b.value →
      (c.isStrict = true → b.isStrict = true) → P c) :
    (∀ b ∈ selectBound p q lt gt, P b) ↔ (∀ b ∈ p, P b) ∨ ∀ b ∈ q, P b := by
  cases p with
  | none => simp [selectBound]
  | some b =>
    cases q with
    | none => simp [selectBound]
    | some c =>
      simp only [selectBound, mem_def, Option.some.injEq, forall_eq']
      split_ifs with h h' <;> simp only [Option.some.injEq, forall_eq']
      · exact ⟨Or.inl, fun hor => hor.elim id (hlt b c h)⟩
      · exact ⟨Or.inr, fun hor => hor.elim (hgt b c h') id⟩
      have hvalue := heq _ _ h h'
      constructor
      · intro hof
        cases hb : b.isStrict with
        | false => exact Or.inl (hweaken _ b hof (by simp) (by simp [hb]))
        | true => exact Or.inr (hweaken _ c hof (by simp [hvalue]) (by simp [hb]))
      · rintro (hb | hc)
        · exact hweaken b _ hb (by simp) (by simp +contextual)
        · exact hweaken c _ hc (by simpa using hvalue) (by simp)

theorem below_selectBound :
    (∀ b ∈ selectBound p q (· < ·) (· > ·), b.Below a) ↔ (∀ b ∈ p, b.Below a) ∨
      ∀ b ∈ q, b.Below a := by
  refine forall_selectBound (fun b c h hc => ?_) (fun b c h hb => ?_) (fun v w h h' => ?_)
    fun _ _ => Bound.Below.weaken
  · exact Bound.below_of_lt ((of_decide_eq_true h).trans_le hc.1)
  · exact Bound.below_of_lt ((of_decide_eq_true h).trans_le hb.1)
  · exact le_antisymm (by simpa using h') (by simpa using h)

theorem above_selectBound :
    (∀ b ∈ selectBound p q (· > ·) (· < ·), b.Above a) ↔ (∀ b ∈ p, b.Above a) ∨
      ∀ b ∈ q, b.Above a := by
  refine forall_selectBound (fun b c h hc => ?_) (fun b c h hb => ?_) (fun v w h h' => ?_)
    fun _ _ => Bound.Above.weaken
  · exact Bound.above_of_lt (hc.1.trans_lt (of_decide_eq_true h))
  · exact Bound.above_of_lt (hb.1.trans_lt (of_decide_eq_true h))
  · exact le_antisymm (by simpa using h) (by simpa using h')

theorem mem_mergePair (hz : intervalMergePair x y = some z) (h : a ∈ x ∨ a ∈ y) : a ∈ z := by
  unfold intervalMergePair at hz
  split_ifs at hz
  cases hz
  exact ⟨below_selectBound.2 (h.imp And.left And.left),
    above_selectBound.2 (h.imp And.right And.right)⟩

theorem closure_contains {p : ℚ} (hlo : ∀ b ∈ x.low, b.value ≤ p)
    (hhi : ∀ b ∈ x.high, p ≤ b.value) : intervalContainsP p (intervalClosure x) = true := by
  refine containsP_of_mem ⟨fun b hb => ?_, fun b hb => ?_⟩
  · simp only [intervalClosure, typeBoundNumber, mem_def, map_map, map_eq_some_iff] at hb
    obtain ⟨c, hc, rfl⟩ := hb
    exact Bound.below_closed.2 (hlo c hc)
  · simp only [intervalClosure, typeBoundNumber, mem_def, map_map, map_eq_some_iff] at hb
    obtain ⟨c, hc, rfl⟩ := hb
    exact Bound.above_closed.2 (hhi c hc)

/-- A lower bound of a member of `y` is in `y`, when it bounds at least as much as the lower bound
of `y`. -/
theorem testNumber_low {p : Bound} (hp : p.Below a) (ha : a ∈ y)
    (hlow : ∀ b ∈ y.low, b.value < p.value ∨ b.value = p.value ∧
      (b.isStrict = true → p.isStrict = true)) :
    testNumber p y .low = true := by
  have hhi : ∀ b ∈ y.high, p.value ≤ b.value := fun b hb => hp.1.trans (ha.2 b hb).1
  have hlo : ∀ b ∈ y.low, b.value ≤ p.value := fun b hb => (hlow b hb).elim le_of_lt fun h => h.1.le
  unfold testNumber
  rw [if_pos (closure_contains hlo hhi)]
  -- Where the upper bound of `y` has the value of `p`, the member is that value and neither is
  -- strict.
  have hpoint : ∀ u, y.high = some u → u.value = p.value → p.isStrict = false ∧
      u.isStrict = false := by
    intro u hu heq
    have hle : a ≤ p.value := heq ▸ (ha.2 u hu).1
    refine ⟨?_, ?_⟩
    · by_contra hs
      exact absurd (hp.2 (by simpa using hs)) hle.not_gt
    · by_contra hs
      exact absurd (heq ▸ (ha.2 u hu).2 (by simpa using hs)) hp.1.not_gt
  simp only [typeBoundNumber, map_eq_some_iff]
  split_ifs with h1 h2 h3
  · obtain ⟨⟨l, hl, hlv⟩, u, hu, huv⟩ := h1
    obtain ⟨hps, hus⟩ := hpoint u hu huv
    have hls : l.isStrict = false := by
      rcases hlow l hl with h | h
      · exact absurd hlv h.ne
      · simpa [hps] using h.2
    simp [hl, hu, hps, hus, hls]
  · obtain ⟨l, hl, hlv⟩ := h2
    rcases hlow l hl with h | h
    · exact absurd hlv h.ne
    · cases hs : p.isStrict <;> simp_all
  · obtain ⟨u, hu, huv⟩ := h3
    obtain ⟨hps, hus⟩ := hpoint u hu huv
    simp [hu, hps, hus]
  · rfl

theorem testLowerBound_or (hx : a ∈ x) (hy : a ∈ y) :
    testLowerBound x.low y = true ∨ testLowerBound y.low x = true := by
  unfold testLowerBound
  cases hl : x.low with
  | none =>
    cases hm : y.low with
    | none => exact .inl rfl
    | some c => exact .inr (testNumber_low (hy.1 c hm) hx (by simp [hl]))
  | some b =>
    cases hm : y.low with
    | none => exact .inl (testNumber_low (hx.1 b hl) hy (by simp [hm]))
    | some c =>
      rcases lt_trichotomy b.value c.value with hlt | heq | hgt
      · exact .inr (testNumber_low (hy.1 c hm) hx (by simp [hl, hlt]))
      · cases hb : b.isStrict with
        | false => exact .inr (testNumber_low (hy.1 c hm) hx (by simp [hl, heq, hb]))
        | true => exact .inl (testNumber_low (hx.1 b hl) hy (by simp [hm, heq, hb]))
      · exact .inl (testNumber_low (hx.1 b hl) hy (by simp [hm, hgt]))

theorem mergePair_of_mem (hx : a ∈ x) (hy : a ∈ y) : ∃ z, intervalMergePair x y = some z := by
  have h : intervalIntersectP x y = true := by
    unfold intervalIntersectP intervalIntersectionDifference
    rcases testLowerBound_or hx hy with h | h <;> simp [h]
  unfold intervalMergePair
  rw [h]
  exact ⟨_, rfl⟩

theorem mergePair_of_adjacent (h : intervalAdjacentP x y = true) :
    ∃ z, intervalMergePair x y = some z := by
  unfold intervalMergePair
  rw [h, Bool.or_true]
  exact ⟨_, rfl⟩

/-! ## Products -/

/-- An interval, or its negative. -/
def Sign.apply : Sign → Interval → Interval
  | plus, x => x
  | minus, x => intervalNeg x

def Sign.mul : Sign → Sign → Sign
  | plus, t => t
  | minus, plus => minus
  | minus, minus => plus

/-- The same for a member. -/
def Sign.ofNum : Sign → ℚ → ℚ
  | plus, a => a
  | minus, a => -a

theorem mem_apply (s : Sign) (h : a ∈ x) : s.ofNum a ∈ s.apply x := by
  cases s with
  | plus => exact h
  | minus => exact mem_intervalNeg h

theorem apply_plus (h : intervalRangeInfo x 0 = some s) :
    intervalRangeInfo (s.apply x) 0 = some .plus := by
  cases s with
  | plus => exact h
  | minus => exact rangeInfo_neg h

theorem ofNum_mul (s t : Sign) (a b : ℚ) : (s.mul t).ofNum (s.ofNum a * t.ofNum b) = a * b := by
  cases s <;> cases t <;> simp [Sign.mul, Sign.ofNum]

/-- The product of two positive intervals. -/
def mulPlus (x y : Interval) : Interval := ⟨boundMul x.low y.low, boundMul x.high y.high⟩

theorem intervalMul_plus (hx : intervalRangeInfo x 0 = some .plus)
    (hy : intervalRangeInfo y 0 = some .plus) : intervalMul x y = .ok (mulPlus x y) := by
  rw [intervalMul]
  simp [hx, hy, mulPlus]
  rfl

theorem intervalMul_minus_right (hx : intervalRangeInfo x 0 = some .plus)
    (hy : intervalRangeInfo y 0 = some .minus) :
    intervalMul x y = .ok (intervalNeg (mulPlus x (intervalNeg y))) := by
  rw [intervalMul]
  simp [hx, hy, intervalMul_plus hx (rangeInfo_neg hy)]

theorem intervalMul_minus_left (hx : intervalRangeInfo x 0 = some .minus)
    (hy : intervalRangeInfo y 0 = some t)
    (hz : intervalMul (intervalNeg x) y = .ok z) : intervalMul x y = .ok (intervalNeg z) := by
  rw [intervalMul]
  simp [hx, hy, hz]

theorem intervalMul_of_signs (hx : intervalRangeInfo x 0 = some s)
    (hy : intervalRangeInfo y 0 = some t) :
    intervalMul x y = .ok ((s.mul t).apply (mulPlus (s.apply x) (t.apply y))) := by
  cases s with
  | plus =>
    cases t with
    | plus => exact intervalMul_plus hx hy
    | minus => exact intervalMul_minus_right hx hy
  | minus =>
    cases t with
    | plus => exact intervalMul_minus_left hx hy (intervalMul_plus (rangeInfo_neg hx) hy)
    | minus =>
      rw [intervalMul_minus_left hx hy (intervalMul_minus_right (rangeInfo_neg hx) hy),
        intervalNeg_neg]
      rfl

theorem below_boundMul (hp : ∀ b ∈ p, b.Below a ∧ 0 ≤ b.value)
    (hq : ∀ b ∈ q, b.Below c ∧ 0 ≤ b.value) (hr : r ∈ boundMul p q) : r.Below (a * c) := by
  cases p with
  | none => cases hr
  | some b =>
    cases q with
    | none => cases hr
    | some d =>
      obtain ⟨hb, hb0⟩ := hp b rfl
      obtain ⟨hd, hd0⟩ := hq d rfl
      simp only [boundMul, boundBinop] at hr
      split_ifs at hr with hz
      · cases hr
        have h0 : (SignType.sign b.value : ℚ) * SignType.sign d.value = 0 := by
          rcases hz with rfl | rfl <;> simp
        rw [h0]
        exact Bound.below_closed.2 (mul_nonneg (hb0.trans hb.1) (hd0.trans hd.1))
      · cases hr
        rw [not_or] at hz
        exact hb.mul hd hb0 hd0 hz.1 hz.2

theorem above_boundMul (ha : 0 ≤ a) (hc : 0 ≤ c) (hp : ∀ b ∈ p, b.Above a)
    (hq : ∀ b ∈ q, b.Above c) (hr : r ∈ boundMul p q) : r.Above (a * c) := by
  cases p with
  | none => cases hr
  | some b =>
    cases q with
    | none => cases hr
    | some d =>
      have hb := hp b rfl
      have hd := hq d rfl
      simp only [boundMul, boundBinop] at hr
      split_ifs at hr with hz
      · cases hr
        rcases hz with rfl | rfl
        · rw [le_antisymm hb.1 ha]
          simp [Bound.Above]
        · rw [le_antisymm hd.1 hc]
          simp [Bound.Above]
      · cases hr
        rw [not_or] at hz
        exact hb.mul hd ha hc hz.1 hz.2

theorem mem_mulPlus (hx : intervalRangeInfo x 0 = some .plus)
    (hy : intervalRangeInfo y 0 = some .plus) (ha : a ∈ x) (hc : c ∈ y) : a * c ∈ mulPlus x y := by
  obtain ⟨b, hb, hb0⟩ := nonneg_of_plus hx
  obtain ⟨d, hd, hd0⟩ := nonneg_of_plus hy
  refine ⟨fun r hr => below_boundMul (fun e he => ⟨ha.1 e he, ?_⟩) (fun e he => ⟨hc.1 e he, ?_⟩) hr,
    fun r hr =>
    above_boundMul (nonneg_of_mem hx ha) (nonneg_of_mem hy hc) ha.2 hc.2 hr⟩
  · cases hb.symm.trans he
    exact hb0
  · cases hd.symm.trans he
    exact hd0

/-- A product is computed and contains the products of the members. -/
def MulSound (x y : Interval) : Prop := ∃ z, intervalMul x y = .ok z ∧ ∀ a ∈ x, ∀ c ∈ y, a * c ∈ z

theorem mulSound_of_signs (hx : intervalRangeInfo x 0 = some s)
    (hy : intervalRangeInfo y 0 = some t) : MulSound x y := by
  refine ⟨_, intervalMul_of_signs hx hy, fun a ha c hc => ?_⟩
  rw [← ofNum_mul s t a c]
  exact mem_apply _ (mem_mulPlus (apply_plus hx) (apply_plus hy) (mem_apply s ha) (mem_apply t hc))

theorem adjacent_signs {u v : Interval} {b : Bound} (t : Sign) (hu : u.low = some (.closed 0))
    (hv : v.low = some b)
    (hb : b.value = 0) : intervalAdjacentP ((Sign.minus.mul t).apply u) (t.apply v) = true := by
  unfold intervalAdjacentP
  cases t <;> simp [Sign.apply, Sign.mul, intervalNeg_eq, adjacent, hu, hv, hb, Bound.neg]

theorem sign_mul_comm (s t : Sign) : s.mul t = t.mul s := by cases s <;> cases t <;> rfl

theorem neg_split_low (x : Interval) : (intervalNeg (intervalSplit 0 x true true).1).low =
    some (.closed 0) := by
  simp [intervalNeg_eq, intervalSplit, Bound.neg, Bound.of]

theorem boundMul_zero_left (b : Bound) :
    boundMul (some (.closed 0)) (some b) = some (.closed 0) := by
  simp [boundMul]

theorem boundMul_zero_right (b : Bound) :
    boundMul (some b) (some (.closed 0)) = some (.closed 0) := by
  simp [boundMul]

theorem boundMul_strict_left (b : Bound) : ∃ r, boundMul (some (.strict 0)) (some b) = some r ∧
    r.value = 0 := by
  simp only [boundMul, boundBinop]
  split_ifs <;> exact ⟨_, rfl, by simp⟩

theorem boundMul_strict_right (b : Bound) : ∃ r, boundMul (some b) (some (.strict 0)) = some r ∧
    r.value = 0 := by
  simp only [boundMul, boundBinop]
  split_ifs <;> exact ⟨_, rfl, by simp⟩

theorem mem_of_parts {z₁ z₂ : Interval} {f : ℚ → ℚ}
    (h₁ : ∀ a ∈ (intervalSplit 0 x true true).1, f a ∈ z₁)
    (h₂ : ∀ a ∈ (intervalSplit 0 x true true).2, f a ∈ z₂)
    (hz : intervalMergePair z₁ z₂ = some z) (ha : a ∈ x) : f a ∈ z := by
  rcases le_or_gt a 0 with h | h
  · exact mem_mergePair hz (.inl (h₁ a (mem_split_left ha h)))
  · exact mem_mergePair hz (.inr (h₂ a (mem_split_right ha h)))

theorem merged_eq (h : intervalMergePair x y = some z) : merged x y = .ok z := by
  unfold merged
  rw [h]

theorem mulSound_split_right (hx : intervalRangeInfo x 0 = some s)
    (hy : intervalRangeInfo y 0 = none) : MulSound x y := by
  obtain ⟨b, hb, -⟩ := nonneg_of_plus (apply_plus hx)
  obtain ⟨r, hr, hr0⟩ := boundMul_strict_right b
  obtain ⟨z₁, hz₁, hm₁⟩ := mulSound_of_signs hx (rangeInfo_split_left hy)
  obtain ⟨z₂, hz₂, hm₂⟩ := mulSound_of_signs hx (rangeInfo_split_right y)
  have hadj : intervalAdjacentP z₁ z₂ = true := by
    have h₁ := hz₁.symm.trans (intervalMul_of_signs hx (rangeInfo_split_left hy))
    have h₂ := hz₂.symm.trans (intervalMul_of_signs hx (rangeInfo_split_right y))
    rw [sign_mul_comm] at h₁ h₂
    cases h₁
    cases h₂
    refine adjacent_signs s ?_ ?_ hr0
    · show boundMul _ _ = _
      rw [hb, Sign.apply, neg_split_low, boundMul_zero_right]
    · show boundMul _ _ = _
      rw [hb]
      exact hr
  obtain ⟨z, hz⟩ := mergePair_of_adjacent hadj
  refine ⟨z, ?_, fun a ha c hc => mem_of_parts (f := (a * ·)) (hm₁ a ha) (hm₂ a ha) hz hc⟩
  rw [intervalMul]
  simp only [hx, hy, hz₁, hz₂, reduceCtorEq, if_false, if_true]
  exact merged_eq hz

theorem mulSound_of_parts (hx : intervalRangeInfo x 0 = none) {z₁ z₂ : Interval}
    (hz₁ : intervalMul (intervalSplit 0 x true true).1 y = .ok z₁)
    (hz₂ : intervalMul (intervalSplit 0 x true true).2 y = .ok z₂)
    (hm₁ : ∀ a ∈ (intervalSplit 0 x true true).1, ∀ c ∈ y, a * c ∈ z₁)
    (hm₂ : ∀ a ∈ (intervalSplit 0 x true true).2, ∀ c ∈ y, a * c ∈ z₂)
    (hz : intervalMergePair z₁ z₂ = some z) : MulSound x y := by
  refine ⟨z, ?_, fun a ha c hc => mem_of_parts (f :=
    (· * c)) (fun a ha => hm₁ a ha c hc) (fun a ha => hm₂ a ha c hc)
    hz ha⟩
  rw [intervalMul]
  simp only [hx, hz₁, hz₂, if_true]
  exact merged_eq hz

theorem mulSound_split_left (hx : intervalRangeInfo x 0 = none)
    (hy : intervalRangeInfo y 0 = some t) : MulSound x y := by
  obtain ⟨b, hb, -⟩ := nonneg_of_plus (apply_plus hy)
  obtain ⟨r, hr, hr0⟩ := boundMul_strict_left b
  obtain ⟨z₁, hz₁, hm₁⟩ := mulSound_of_signs (rangeInfo_split_left hx) hy
  obtain ⟨z₂, hz₂, hm₂⟩ := mulSound_of_signs (rangeInfo_split_right x) hy
  have hadj : intervalAdjacentP z₁ z₂ = true := by
    have h₁ := hz₁.symm.trans (intervalMul_of_signs (rangeInfo_split_left hx) hy)
    have h₂ := hz₂.symm.trans (intervalMul_of_signs (rangeInfo_split_right x) hy)
    cases h₁
    cases h₂
    refine adjacent_signs t ?_ ?_ hr0
    · show boundMul _ _ = _
      rw [hb, Sign.apply, neg_split_low, boundMul_zero_left]
    · show boundMul _ _ = _
      rw [hb]
      exact hr
  obtain ⟨z, hz⟩ := mergePair_of_adjacent hadj
  exact mulSound_of_parts hx hz₁ hz₂ hm₁ hm₂ hz

theorem mulSound_split_both (hx : intervalRangeInfo x 0 = none)
    (hy : intervalRangeInfo y 0 = none) : MulSound x y := by
  obtain ⟨z₁, hz₁, hm₁⟩ := mulSound_split_right (rangeInfo_split_left hx) hy
  obtain ⟨z₂, hz₂, hm₂⟩ := mulSound_split_right (rangeInfo_split_right x) hy
  obtain ⟨a, ha, hpos⟩ := exists_pos_mem hx
  have h₁ : 0 ∈ z₁ := by simpa using hm₁ 0 (mem_split_left (zero_mem hx) le_rfl) 0 (zero_mem hy)
  have h₂ : 0 ∈ z₂ := by simpa using hm₂ a (mem_split_right ha hpos) 0 (zero_mem hy)
  obtain ⟨z, hz⟩ := mergePair_of_mem h₁ h₂
  exact mulSound_of_parts hx hz₁ hz₂ hm₁ hm₂ hz

theorem mulSound (x y : Interval) : MulSound x y := by
  cases hx : intervalRangeInfo x 0 with
  | none =>
    cases hy : intervalRangeInfo y 0 with
    | none => exact mulSound_split_both hx hy
    | some t => exact mulSound_split_left hx hy
  | some s =>
    cases hy : intervalRangeInfo y 0 with
    | none => exact mulSound_split_right hx hy
    | some t => exact mulSound_of_signs hx hy

/-! ## Absolute values and squares -/

theorem selectBound_nonneg {f g : ℚ → ℚ → Bool} (hp : ∀ b ∈ p, 0 ≤ b.value)
    (hq : ∀ b ∈ q, 0 ≤ b.value) : ∀ b ∈ selectBound p q f g, 0 ≤ b.value := by
  cases p with
  | none => exact nofun
  | some b =>
    cases q with
    | none => exact nofun
    | some c =>
      intro r hr
      simp only [selectBound] at hr
      split_ifs at hr <;> cases hr
      · exact hp b rfl
      · exact hq c rfl
      · simpa using hp b rfl

theorem plus_low_nonneg (h : intervalRangeInfo x 0 = some .plus) : ∀ b ∈ x.low, 0 ≤ b.value := by
  obtain ⟨c, hc, h0⟩ := nonneg_of_plus h
  intro b hb
  cases hc.symm.trans hb
  exact h0

theorem mergePair_abs (h : intervalRangeInfo x 0 = none) :
    ∃ z, intervalMergePair (intervalNeg (intervalSplit 0 x true true).1)
      (intervalSplit 0 x true true).2 = some z := by
  obtain ⟨hlo, hhi⟩ := straddles h
  obtain ⟨l, hl0, hl⟩ := exists_pos_lt (p := x.low.map Bound.neg) (fun b hb => by
    obtain ⟨c, hc, rfl⟩ := mem_map.1 hb
    simpa using hlo c hc)
  obtain ⟨u, hu0, hu⟩ := exists_pos_lt hhi
  have h0 : 0 < min l u := lt_min hl0 hu0
  refine mergePair_of_mem (a := min l u) ⟨fun b hb => ?_, fun b hb => Bound.above_of_lt ?_⟩
    ⟨fun b hb => ?_, fun b hb => Bound.above_of_lt ?_⟩
  · cases (neg_split_low x).symm.trans hb
    exact Bound.below_closed.2 h0.le
  · exact (min_le_left l u).trans_lt (hl b hb)
  · cases hb
    exact Bound.below_of_lt h0
  · exact (min_le_right l u).trans_lt (hu b hb)

theorem intervalAbs_sound (x : Interval) :
    ∃ z, intervalAbs x = .ok z ∧ (∀ b ∈ z.low, 0 ≤ b.value) ∧ ∀ a ∈ x, |a| ∈ z := by
  unfold intervalAbs
  cases hx : intervalRangeInfo x 0 with
  | some s =>
    cases s with
    | plus =>
      refine ⟨x, rfl, plus_low_nonneg hx, fun a ha => ?_⟩
      rwa [abs_of_nonneg (nonneg_of_mem hx ha)]
    | minus =>
      refine ⟨intervalNeg x, rfl, plus_low_nonneg (rangeInfo_neg hx), fun a ha => ?_⟩
      have h0 := nonneg_of_mem (rangeInfo_neg hx) (mem_intervalNeg ha)
      rw [abs_of_nonpos (neg_nonneg.1 h0)]
      exact mem_intervalNeg ha
  | none =>
    obtain ⟨z, hz⟩ := mergePair_abs hx
    refine ⟨z, merged_eq hz, ?_, fun a ha => mem_of_parts (f :=
      abs) (fun a ha => ?_) (fun a ha => ?_) hz ha⟩
    · unfold intervalMergePair at hz
      split_ifs at hz
      cases hz
      intro b hb
      dsimp only at hb
      exact selectBound_nonneg (plus_low_nonneg (rangeInfo_neg (rangeInfo_split_left hx)))
        (plus_low_nonneg (rangeInfo_split_right x)) b hb
    · rw [abs_of_nonpos (ha.2 _ rfl).1]
      exact mem_intervalNeg ha
    · rwa [abs_of_nonneg (nonneg_of_mem (rangeInfo_split_right x) ha)]

theorem intervalSqr_sound (x : Interval) : ∃ z, intervalSqr x = .ok z ∧ ∀ a ∈ x, a * a ∈ z := by
  obtain ⟨z, hz, hlow, hmem⟩ := intervalAbs_sound x
  unfold intervalSqr
  rw [hz]
  refine ⟨_, rfl, fun a ha => ⟨fun r hr => ?_, fun r hr => ?_⟩⟩
  · obtain ⟨b, hb, rfl⟩ := mem_map.1 hr
    refine ⟨?_, by simp⟩
    rw [Bound.value_of, ← abs_mul_abs_self a]
    exact mul_self_le_mul_self (hlow b hb) ((hmem a ha).1 b hb).1
  · obtain ⟨b, hb, rfl⟩ := mem_map.1 hr
    refine ⟨?_, by simp⟩
    rw [Bound.value_of, ← abs_mul_abs_self a]
    exact mul_self_le_mul_self (abs_nonneg a) ((hmem a ha).2 b hb).1

/-! ## Quotients -/

/-- The quotient of two positive intervals. -/
def divPlus (integer : Bool) (top bot : Interval) : Interval :=
  ⟨boundDiv integer top top.low bot.high,
    if top.high = some (.closed 0) then some (.closed 0) else boundDiv integer top top.high bot.low⟩

/-- A quotient by an interval with a sign is one interval, and contains the quotients of the
members. -/
def DivSound (integer : Bool) (x y : Interval) : Prop :=
  ∃ z, intervalDiv x y integer = .ok (.interval z) ∧
    ∀ a ∈ x, ∀ c ∈ y, c ≠ 0 → (integer = true → ∃ k : ℤ, c = k) → a / c ∈ z

variable {integer : Bool}

theorem below_boundDiv (hx : intervalRangeInfo x 0 = some .plus) (ha : a ∈ x)
    (hc : c ∈ y) (hc0 : 0 < c) (hr : r ∈ boundDiv integer x x.low y.high) : r.Below (a / c) := by
  obtain ⟨b, hb, hb0⟩ := nonneg_of_plus hx
  have ha0 := nonneg_of_mem hx ha
  cases hy : y.high with
  | none =>
    rw [hy, boundDiv] at hr
    split_ifs at hr with hz <;> cases hr
    · have hne : a ≠ 0 := by
        intro h
        rw [h] at ha
        simp [containsP_of_mem ha] at hz
      exact Bound.below_of_lt (div_pos (ha0.lt_of_ne' hne) hc0)
    · exact Bound.below_closed.2 (div_nonneg ha0 hc0.le)
  | some u =>
    have hu := hc.2 u hy
    have hu0 : u.value ≠ 0 := (hc0.trans_le hu.1).ne'
    simp only [hy, hb, boundDiv, if_neg hu0, some_inj] at hr
    split_ifs at hr with hz <;> cases hr
    · refine ⟨?_, nofun⟩
      rw [zero_div]
      exact div_nonneg ha0 hc0.le
    · exact (ha.1 b hb).div hu hb0 hc0 hz

theorem above_boundDiv (hy : intervalRangeInfo y 0 = some .plus) (ha0 : 0 ≤ a)
    (ha : a ∈ x) (hc : c ∈ y)
    (hc0 : 0 < c) (hk : integer = true → ∃ k : ℤ, c = k) (hz : x.high ≠ some (.closed 0))
    (hr : r ∈ boundDiv integer x x.high y.low) : r.Above (a / c) := by
  obtain ⟨l, hl, hl0⟩ := nonneg_of_plus hy
  simp only [hl, boundDiv, if_neg hz] at hr
  split_ifs at hr with hlz hi
  · -- A positive integer is at least one.
    obtain ⟨k, rfl⟩ := hk hi
    have hk1 : (1 : ℚ) ≤ k := by exact_mod_cast (by exact_mod_cast hc0 : (0 : ℤ) < k)
    have hle : a / k ≤ a := div_le_self ha0 hk1
    exact ⟨hle.trans (ha.2 r hr).1, fun hs => hle.trans_lt ((ha.2 r hr).2 hs)⟩
  · cases hr
  · obtain ⟨b, hb, d, hd, rfl⟩ := mem_boundBinop hr
    cases hd
    exact (ha.2 b hb).div (hc.1 l hl) ha0 (hl0.lt_of_ne' hlz) fun h => hz (h ▸ hb)

theorem mem_divPlus (hx : intervalRangeInfo x 0 = some .plus)
    (hy : intervalRangeInfo y 0 = some .plus) (ha : a ∈ x)
    (hc : c ∈ y) (hc0 : c ≠ 0) (hk : integer = true → ∃ k : ℤ, c = k) :
    a / c ∈ divPlus integer x y := by
  have ha0 := nonneg_of_mem hx ha
  have hpos : 0 < c := (nonneg_of_mem hy hc).lt_of_ne' hc0
  refine ⟨fun r hr => below_boundDiv hx ha hc hpos hr, fun r hr => ?_⟩
  simp only [divPlus] at hr
  split_ifs at hr with hz
  · cases hr
    rw [le_antisymm (ha.2 _ hz).1 ha0]
    simp [Bound.Above]
  · exact above_boundDiv hy ha0 ha hc hpos hk hz hr

theorem intervalDiv_minus_right (hy : intervalRangeInfo y 0 = some .minus)
    (hz : intervalDiv x (intervalNeg y) integer = .ok (.interval z)) :
    intervalDiv x y integer = .ok (.interval (intervalNeg z)) := by
  rw [intervalDiv]
  simp only [hy, hz, reduceCtorEq, if_false, if_true]
  rfl

theorem intervalDiv_minus_left (hx : intervalRangeInfo x 0 = some .minus)
    (hy : intervalRangeInfo y 0 = some .plus)
    (hz : intervalDiv (intervalNeg x) y integer = .ok (.interval z)) :
    intervalDiv x y integer = .ok (.interval (intervalNeg z)) := by
  rw [intervalDiv]
  simp only [hx, hy, hz, reduceCtorEq, some_inj, if_false, if_true]
  rfl

theorem intervalDiv_plus (hx : intervalRangeInfo x 0 = some .plus)
    (hy : intervalRangeInfo y 0 = some .plus) :
    intervalDiv x y integer = .ok (.interval (divPlus integer x y)) := by
  rw [intervalDiv]
  simp only [hx, hy, reduceCtorEq, some_inj, if_false, and_self, if_true]
  rfl

theorem divSound_plus_plus (integer : Bool) (hx : intervalRangeInfo x 0 = some .plus)
    (hy : intervalRangeInfo y 0 = some .plus) : DivSound integer x y :=
  ⟨_, intervalDiv_plus hx hy, fun _ ha _ hc hc0 hk => mem_divPlus hx hy ha hc hc0 hk⟩

theorem divSound_of_plus (integer : Bool) (hx : intervalRangeInfo x 0 = some s)
    (hy : intervalRangeInfo y 0 = some .plus) : DivSound integer x y := by
  cases s with
  | plus => exact divSound_plus_plus integer hx hy
  | minus =>
    obtain ⟨z, hz, hm⟩ := divSound_plus_plus integer (rangeInfo_neg hx) hy
    refine ⟨_, intervalDiv_minus_left hx hy hz, fun a ha c hc hc0 hk => ?_⟩
    have h := mem_intervalNeg (hm (-a) (mem_intervalNeg ha) c hc hc0 hk)
    rwa [neg_div, neg_neg] at h

theorem mem_unbounded (a : ℚ) : a ∈ (⟨none, none⟩ : Interval) := ⟨nofun, nofun⟩

theorem divSound_split (integer : Bool) (hx : intervalRangeInfo x 0 = none)
    (hy : intervalRangeInfo y 0 = some .plus) : DivSound integer x y := by
  obtain ⟨z₁, hz₁, hm₁⟩ := divSound_of_plus integer (rangeInfo_split_left hx) hy
  obtain ⟨z₂, hz₂, hm₂⟩ := divSound_of_plus integer (rangeInfo_split_right x) hy
  refine ⟨(intervalMergePair z₁ z₂).getD ⟨none, none⟩, ?_, fun a ha c hc hc0 hk => ?_⟩
  · rw [intervalDiv]
    simp only [hx, hy, hz₁, hz₂, reduceCtorEq, some_inj, if_false, if_true]
    rfl
  cases hz : intervalMergePair z₁ z₂ with
  | none => exact mem_unbounded _
  | some z =>
    exact mem_of_parts (f := (· / c)) (fun a ha => hm₁ a ha c hc hc0 hk) (fun a ha =>
      hm₂ a ha c hc hc0 hk) hz ha

theorem divSound_plus (integer : Bool) (x : Interval) (hy : intervalRangeInfo y 0 = some .plus) :
    DivSound integer x y := by
  cases hx : intervalRangeInfo x 0 with
  | none => exact divSound_split integer hx hy
  | some s => exact divSound_of_plus integer hx hy

theorem divSound_of_sign (integer : Bool) (x : Interval) (hy : intervalRangeInfo y 0 = some t) :
    DivSound integer x y := by
  cases t with
  | plus => exact divSound_plus integer x hy
  | minus =>
    obtain ⟨z, hz, hm⟩ := divSound_plus integer x (rangeInfo_neg hy)
    refine ⟨_, intervalDiv_minus_right hy hz, fun a ha c hc hc0 hk => ?_⟩
    have hk' : integer = true → ∃ k : ℤ, -c = k := fun h => (hk h).imp' Neg.neg (by simp)
    have h := mem_intervalNeg (hm a ha (-c) (mem_intervalNeg hc) (neg_ne_zero.2 hc0) hk')
    rwa [div_neg, neg_neg] at h

/-- The intervals that a quotient is in one of. -/
def Quotient.Mem (q : Quotient) (a : ℚ) : Prop :=
  match q with
  | interval z => a ∈ z
  | pair z₁ z₂ => a ∈ z₁ ∨ a ∈ z₂

theorem intervalDiv_of_none (x : Interval) (hy : intervalRangeInfo y 0 = none) :
    intervalDiv x y false = .ok (.interval ⟨none, none⟩) := by
  rw [intervalDiv]
  cases hx : intervalRangeInfo x 0 <;> simp [hy] <;> rfl

theorem intervalDiv_sound (integer : Bool) (x y : Interval) :
    ∃ q, intervalDiv x y integer = .ok q ∧
      ∀ a ∈ x, ∀ c ∈ y, c ≠ 0 → (integer = true → ∃ k : ℤ, c = k) → q.Mem (a / c) := by
  cases hy : intervalRangeInfo y 0 with
  | some t =>
    obtain ⟨z, hz, hm⟩ := divSound_of_sign integer x hy
    exact ⟨.interval z, hz, hm⟩
  | none =>
    cases integer with
    | false => exact ⟨.interval ⟨none, none⟩, intervalDiv_of_none x hy,
      fun a _ c _ _ _ => mem_unbounded (a / c)⟩
    | true =>
      obtain ⟨z₁, hz₁, hm₁⟩ := divSound_of_sign true x (rangeInfo_split_left hy)
      obtain ⟨z₂, hz₂, hm₂⟩ := divSound_of_sign true x (rangeInfo_split_right y)
      have hparts : ∀ a ∈ x, ∀ c ∈ y, c ≠ 0 → (true = true → ∃ k : ℤ, c = k) → a / c ∈ z₁ ∨
          a / c ∈ z₂ := by
        intro a ha c hc hc0 hk
        rcases lt_or_gt_of_ne hc0 with h | h
        · exact .inl (hm₁ a ha c (mem_split_left hc h.le) hc0 hk)
        · exact .inr (hm₂ a ha c (mem_split_right hc h) hc0 hk)
      have heq : intervalDiv x y true =
          (intervalMergePair z₁ z₂).elim (.ok (.pair z₁ z₂)) fun z => .ok (.interval z) := by
        rw [intervalDiv]
        simp only [hy, hz₁, hz₂, if_true, bind, Except.bind, Quotient.asInterval]
        cases intervalMergePair z₁ z₂ <;> rfl
      cases hz : intervalMergePair z₁ z₂ with
      | some z =>
        rw [hz] at heq
        exact ⟨_, heq, fun a ha c hc hc0 hk => mem_mergePair hz (hparts a ha c hc hc0 hk)⟩
      | none =>
        rw [hz] at heq
        exact ⟨_, heq, hparts⟩

theorem interval_arithmetic_sound (x y : Interval) (integer : Bool) :
    (∀ a ∈ x, ∀ b ∈ y, a + b ∈ intervalAdd x y) ∧ (∀ a ∈ x, ∀ b ∈ y, a - b ∈ intervalSub x y) ∧
      (∃ z, intervalMul x y = .ok z ∧ ∀ a ∈ x, ∀ b ∈ y, a * b ∈ z) ∧ (∀ a ∈ x, -a ∈ intervalNeg x) ∧
      (∃ z, intervalAbs x = .ok z ∧ ∀ a ∈ x, |a| ∈ z) ∧
        (∃ z, intervalSqr x = .ok z ∧ ∀ a ∈ x, a * a ∈ z) ∧
      ∃ q, intervalDiv x y integer = .ok q ∧
        ∀ a ∈ x, ∀ b ∈ y, b ≠ 0 → (integer = true → ∃ k : ℤ, b = k) → q.Mem (a / b) := by
  obtain ⟨z, hz, -, hm⟩ := intervalAbs_sound x
  exact ⟨fun a ha b hb => mem_intervalAdd ha hb,
    fun a ha b hb => mem_intervalSub ha hb, mulSound x y,
    fun a ha => mem_intervalNeg ha, ⟨z, hz, hm⟩, intervalSqr_sound x, intervalDiv_sound integer x y⟩

end Sbcl.Compiler
