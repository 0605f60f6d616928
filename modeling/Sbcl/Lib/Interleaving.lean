import Mathlib.Data.Nat.Init
import Mathlib.Tactic.Common

/-!
# Interleavings of threads

Threads share a state and take atomic steps in any order.

* `Machine` : what a thread may call when it is at rest, and the atomic steps of a call;
* `Execution` : an infinite run of any number of threads, in which any step may also be a pause;
* `RelyGuarantee` : an invariant of the shared state, what a step may do to it, and an invariant of
  each thread's local state that survives the steps of the others;
* `Execution.inv`, `Execution.window` : the invariants hold at every moment, and over the window of
  one call the local one may speak of the states the window has seen.
-/

namespace Interleaving

open Nat

variable {a b i m : Nat}

structure Machine (S L : Type) where
  Init : S → Prop
  idle : L
  Busy : L → Prop
  rest : ¬ Busy idle
  Invoke : S → L → Prop
  Step : S → L → S → L → Prop

structure Config (S L : Type) where
  shared : S
  loc : Nat → L

variable {S L : Type} {M : Machine S L}

/-- A thread at rest invokes an operation, which leaves the shared state alone, or a busy one goes
on. -/
structure Machine.ThreadStep (M : Machine S L) (i : Nat) (c c' : Config S L) : Prop where
  others : ∀ j, j ≠ i → c'.loc j = c.loc j
  own : (¬ M.Busy (c.loc i) ∧ c'.shared = c.shared ∧ M.Invoke c.shared (c'.loc i)) ∨
    (M.Busy (c.loc i) ∧ M.Step c.shared (c.loc i) c'.shared (c'.loc i))

structure Execution (M : Machine S L) where
  cfg : Nat → Config S L
  init : M.Init (cfg 0).shared
  init_loc : ∀ i, (cfg 0).loc i = M.idle
  next : ∀ m, cfg (m + 1) = cfg m ∨ ∃ i, M.ThreadStep i (cfg m) (cfg (m + 1))

namespace Execution

variable (e : Execution M)

def shared (m : Nat) : S := (e.cfg m).shared

def loc (m i : Nat) : L := (e.cfg m).loc i

/-- The shared states of the moments from `a` to `b`. -/
def Window (a b : Nat) (s : S) : Prop := ∃ x, a ≤ x ∧ x ≤ b ∧ e.shared x = s

/-- Thread `i` is in one call from its first moment `a` until it is back at rest at `b`. -/
structure Call (i a b : Nat) : Prop where
  lt : a < b
  begins : ∃ m, a = m + 1 ∧ ¬ M.Busy (e.loc m i)
  busy : ∀ x, a ≤ x → x < b → M.Busy (e.loc x i)
  ends : ¬ M.Busy (e.loc b i)

end Execution

theorem exists_first {p : Nat → Prop} {a b : Nat} (hab : a ≤ b) (ha : ¬ p a) (hb : p b) :
    ∃ m, a ≤ m ∧ m < b ∧ ¬ p m ∧ p (m + 1) := by
  induction b, hab using le_induction with
  | base => exact absurd hb ha
  | succ b hab ih =>
    by_cases hp : p b
    · obtain ⟨m, ham, hmb, hm⟩ := ih hp
      exact ⟨m, ham, lt_succ_of_lt hmb, hm⟩
    · exact ⟨b, hab, lt_succ_self b, hp, hb⟩

/-! ## Rely and guarantee -/

/-- `G` holds of the shared state, a step changes it as `R` allows, and `I W s l` holds of a thread
in the local state `l`, where `W` holds of the shared states it may have seen. -/
structure RelyGuarantee (M : Machine S L) (G : S → Prop) (R : S → S →
    Prop) (I : (S → Prop) → S → L → Prop) :
    Prop where
  init : ∀ s, M.Init s → G s
  idle : ∀ W s, I W s M.idle
  invoke : ∀ W s l, G s → M.Invoke s l → W s → I W s l
  step : ∀ W s l s' l', G s → I W s l → M.Busy l → M.Step s l s' l' → W s → W s' → G s' ∧
    R s s' ∧ I W s' l'
  stable : ∀ W s s' l, R s s' → I W s l → I W s' l
  refl : ∀ s, R s s
  mono : ∀ (W W' : S → Prop) s l, (∀ x, W x → W' x) → I W s l → I W' s l

namespace Execution

variable {G : S → Prop} {R : S → S → Prop} {I : (S → Prop) → S → L → Prop} (e : Execution M)

theorem inv (rg : RelyGuarantee M G R I) (m : Nat) :
    G (e.shared m) ∧ ∀ i, I (fun _ => True) (e.shared m) (e.loc m i) := by
  induction m with
  | zero =>
    refine ⟨rg.init _ e.init, fun i => ?_⟩
    rw [loc, e.init_loc i]
    exact rg.idle _ _
  | succ m ih =>
    obtain ⟨hG, hI⟩ := ih
    rcases e.next m with heq | ⟨i, hstep⟩
    · simp only [shared, loc, heq]
      exact ⟨hG, hI⟩
    obtain ⟨hrest, hs, hinv⟩ | ⟨hbusy, hs⟩ := hstep.own
    · refine ⟨by rw [shared, hs]; exact hG, fun j => ?_⟩
      simp only [shared, loc, hs]
      by_cases hj : j = i
      · subst hj
        exact rg.invoke _ _ _ hG hinv trivial
      · rw [hstep.others j hj]
        exact hI j
    · obtain ⟨hG', hR, hI'⟩ := rg.step _ _ _ _ _ hG (hI i) hbusy hs trivial trivial
      refine ⟨hG', fun j => ?_⟩
      by_cases hj : j = i
      · subst hj
        exact hI'
      · rw [loc, hstep.others j hj]
        exact rg.stable _ _ _ _ hR (hI j)

theorem shared_inv (rg : RelyGuarantee M G R I) (m : Nat) : G (e.shared m) := (e.inv rg m).1

theorem guarantee (rg : RelyGuarantee M G R I) (m : Nat) : R (e.shared m) (e.shared (m + 1)) := by
  obtain ⟨hG, hI⟩ := e.inv rg m
  rcases e.next m with heq | ⟨i, hstep⟩
  · rw [shared, shared, heq]
    exact rg.refl _
  obtain ⟨_, hs, _⟩ | ⟨hbusy, hs⟩ := hstep.own
  · rw [shared, shared, hs]
    exact rg.refl _
  · exact (rg.step _ _ _ _ _ hG (hI i) hbusy hs trivial trivial).2.1

theorem guarantee_le {Q : S → S → Prop} (rg : RelyGuarantee M G R I) (hrefl : ∀ s, Q s s)
    (htrans : ∀ s₁ s₂ s₃, Q s₁ s₂ → Q s₂ s₃ → Q s₁ s₃)
    (hRQ : ∀ s s', R s s' → Q s s') (hab : a ≤ b) : Q (e.shared a) (e.shared b) := by
  induction b, hab using le_induction with
  | base => exact hrefl _
  | succ b _ ih => exact htrans _ _ _ ih (hRQ _ _ (e.guarantee rg b))

/-- While thread `i` stays busy the states it has seen are those since `a`. -/
theorem window (rg : RelyGuarantee M G R I) (hab : a ≤ b)
    (ha : I (e.Window a a) (e.shared a) (e.loc a i))
    (hbusy : ∀ x, a ≤ x → x < b → M.Busy (e.loc x i)) :
    I (e.Window a b) (e.shared b) (e.loc b i) := by
  induction b, hab using le_induction with
  | base => exact ha
  | succ b hab ih =>
    have hI := ih fun x hax hxb => hbusy x hax (lt_succ_of_lt hxb)
    have hb := hbusy b hab (lt_succ_self b)
    have hI' : I (e.Window a (b + 1)) (e.shared b) (e.loc b i) := by
      refine rg.mono _ _ _ _ (fun s hs => ?_) hI
      obtain ⟨x, hax, hxb, hx⟩ := hs
      exact ⟨x, hax, le_succ_of_le hxb, hx⟩
    rcases e.next b with heq | ⟨j, hstep⟩
    · simp only [shared, loc, heq]
      exact hI'
    have hR := e.guarantee rg b
    by_cases hj : j = i
    · subst hj
      obtain ⟨hrest, _, _⟩ | ⟨hbusy', hs⟩ := hstep.own
      · exact absurd hb hrest
      · refine (rg.step _ _ _ _ _ (e.shared_inv rg b) hI' hbusy' hs ?_ ?_).2.2
        · exact ⟨b, hab, le_succ b, rfl⟩
        · exact ⟨b + 1, le_succ_of_le hab, Nat.le_refl _, rfl⟩
    · have hloc : e.loc (b + 1) i = e.loc b i := hstep.others i (Ne.symm hj)
      rw [hloc]
      exact rg.stable _ _ _ _ hR hI'

variable {e}

theorem Call.invoked (hc : e.Call i a b) : M.Invoke (e.shared a) (e.loc a i) := by
  obtain ⟨m, rfl, hrest⟩ := hc.begins
  have hbusy := hc.busy _ (Nat.le_refl _) hc.lt
  rcases e.next m with heq | ⟨j, hstep⟩
  · refine absurd ?_ hrest
    rw [loc, heq] at hbusy
    exact hbusy
  by_cases hj : j = i
  · subst hj
    obtain ⟨_, hs, hinv⟩ | ⟨hb, _⟩ := hstep.own
    · rw [shared, hs]
      exact hinv
    · exact absurd hb hrest
  · have hloc : e.loc (m + 1) i = e.loc m i := hstep.others i (Ne.symm hj)
    rw [hloc] at hbusy
    exact absurd hbusy hrest

theorem exists_begin (e : Execution M) (hb : M.Busy (e.loc m i)) :
    ∃ a, a ≤ m ∧ M.Invoke (e.shared a) (e.loc a i) ∧ ∀ x, a ≤ x → x ≤ m → M.Busy (e.loc x i) := by
  induction m with
  | zero =>
    rw [loc, e.init_loc] at hb
    exact absurd hb M.rest
  | succ m ih =>
    by_cases hm : M.Busy (e.loc m i)
    · obtain ⟨a, ham, hinv, hbusy⟩ := ih hm
      refine ⟨a, le_succ_of_le ham, hinv, fun x hax hxm => ?_⟩
      rcases le_succ_iff.mp hxm with hxm | rfl
      · exact hbusy x hax hxm
      · exact hb
    · refine ⟨m + 1, Nat.le_refl _, ?_, fun x hax hxm => ?_⟩
      · rcases e.next m with heq | ⟨j, hstep⟩
        · rw [loc, heq] at hb
          exact absurd hb hm
        by_cases hj : j = i
        · subst hj
          obtain ⟨_, hs, hinv⟩ | ⟨hbusy, _⟩ := hstep.own
          · rw [shared, hs]
            exact hinv
          · exact absurd hbusy hm
        · rw [show e.loc (m + 1) i = e.loc m i from hstep.others i (Ne.symm hj)] at hb
          exact absurd hb hm
      · rw [Nat.le_antisymm hxm hax]
        exact hb

/-- The local invariant over the window of a call. -/
theorem Call.window (rg : RelyGuarantee M G R I) (hc : e.Call i a b) (ham : a ≤ m)
    (hmb : m ≤ b) : I (e.Window a m) (e.shared m) (e.loc m i) := by
  refine e.window rg ham ?_ fun x hax hxm => hc.busy x hax (Nat.lt_of_lt_of_le hxm hmb)
  exact rg.invoke _ _ _ (e.shared_inv rg a) hc.invoked ⟨a, Nat.le_refl _, Nat.le_refl _, rfl⟩

theorem step_of_busy (hb : M.Busy (e.loc m i)) (hne : e.loc (m + 1) i ≠ e.loc m i) :
    M.ThreadStep i (e.cfg m) (e.cfg (m + 1)) ∧
      M.Step (e.shared m) (e.loc m i) (e.shared (m + 1)) (e.loc (m + 1) i) := by
  rcases e.next m with heq | ⟨j, hstep⟩
  · exact absurd (by rw [loc, heq, loc]) hne
  by_cases hj : j = i
  · subst hj
    obtain ⟨hrest, _⟩ | ⟨_, hs⟩ := hstep.own
    · exact absurd hb hrest
    · exact ⟨hstep, hs⟩
  · exact absurd (hstep.others i (Ne.symm hj)) hne

theorem changed_unique {i j m : Nat} (hi : e.loc (m + 1) i ≠ e.loc m i)
    (hj : e.loc (m + 1) j ≠ e.loc m j) : i = j := by
  rcases e.next m with heq | ⟨k, hstep⟩
  · exact absurd (by rw [loc, heq, loc]) hi
  · have hk : ∀ {x}, e.loc (m + 1) x ≠ e.loc m x → x = k := fun hx =>
      Classical.byContradiction fun hne => hx (hstep.others _ hne)
    rw [hk hi, hk hj]

theorem Call.last (hc : e.Call i a b) : ∃ m, b = m + 1 ∧ a ≤ m ∧
    M.Step (e.shared m) (e.loc m i) (e.shared (m + 1)) (e.loc (m + 1) i) := by
  obtain ⟨m, rfl⟩ := exists_eq_succ_of_ne_zero (Nat.ne_zero_of_lt hc.lt)
  have ham : a ≤ m := le_of_lt_succ hc.lt
  have hb := hc.busy m ham (lt_succ_self m)
  refine ⟨m, rfl, ham, (step_of_busy hb fun heq => hc.ends ?_).2⟩
  rw [succ_eq_add_one, heq]
  exact hb

theorem Call.unique {i a b a' b' m : Nat} (hc : e.Call i a b) (hc' : e.Call i a' b')
    (ham : a ≤ m) (hmb : m < b) (ham' : a' ≤ m) (hmb' : m < b') : a = a' ∧ b = b' := by
  have hstart : ∀ {x y x' y'}, e.Call i x y → e.Call i x' y' → x ≤ m → m < y' → x ≤ x' := by
    intro x y x' y' h h' hx hy
    obtain ⟨k, rfl, hrest⟩ := h.begins
    refine Nat.le_of_not_lt fun hlt => hrest (h'.busy k (le_of_lt_succ hlt) ?_)
    exact Nat.lt_of_lt_of_le (lt_succ_self k) (Nat.le_trans hx (Nat.le_of_lt hy))
  have hend : ∀ {x y x' y'}, e.Call i x y → e.Call i x' y' → x' ≤ m → m < y → y' ≤ y := by
    intro x y x' y' h h' hx hy
    exact Nat.le_of_not_lt fun hlt => h.ends (h'.busy y (Nat.le_trans hx (Nat.le_of_lt hy)) hlt)
  exact ⟨Nat.le_antisymm (hstart hc hc' ham hmb') (hstart hc' hc ham' hmb),
    Nat.le_antisymm (hend hc' hc ham hmb') (hend hc hc' ham' hmb)⟩

end Execution

end Interleaving
