import Sbcl.Lib.Interleaving

/-!
# Linearizability

* `Interface` : the operation that a busy thread performs, and the result of one at rest;
* `SeqObject` : what an operation may return in a state of a sequential object, and the state after
  it;
* `Linearizes` : every call takes effect at one moment between its invocation and its return, and
  the effects in their order are a run of the sequential object;
* `LinearizationPoints` : what has to hold of single steps, for an abstraction of the shared state
  and the result that a thread is bound to return; `LinearizationPoints.linearizes` : every
  execution is then linearizable;
* `fifo` : the queue as a sequential object; `Linearizes.fifo` : what went in is what came out and
  what is still there.
-/

namespace Interleaving

open List Option Nat

variable {S L A Op R : Type}

structure Interface (L Op R : Type) where
  op : L → Option Op
  result : L → Option R

structure SeqObject (A Op R : Type) where
  init : A
  step : A → Op → R → A → Prop

variable {M : Machine S L} (e : Execution M) (I : Interface L Op R) (Q : SeqObject A Op R)

namespace Execution

/-- A call of the operation that returns the result. -/
structure CallOf (i a b : ℕ) (o : Op) (r : R) : Prop where
  call : e.Call i a b
  op : I.op (e.loc a i) = some o
  result : I.result (e.loc b i) = some r

end Execution

/-- The states of the object, and the thread, operation and result of what takes effect at each
moment. -/
structure Linearizes (state : ℕ → A) (effect : ℕ → Option (ℕ × Op × R)) : Prop where
  init : state 0 = Q.init
  silent : ∀ m, effect m = none → state (m + 1) = state m
  legal : ∀ m i o r, effect m = some (i, o, r) → Q.step (state m) o r (state (m + 1))
  calling : ∀ m i o r, effect m = some (i, o, r) → M.Busy (e.loc m i) ∧ I.op (e.loc m i) = some o
  /-- Two effects of one thread are in two calls. -/
  once : ∀ m m' i o r o' r', m < m' → effect m = some (i, o, r) → effect m' = some (i, o', r') →
    ∃ x, m < x ∧ x ≤ m' ∧ ¬ M.Busy (e.loc x i)
  call : ∀ i a b o r, e.CallOf I i a b o r → ∃ m, a ≤ m ∧ m < b ∧ effect m = some (i, o, r)

/-! ## Linearization points -/

variable (M) in
/-- `bound` is the result of a thread that has taken effect. -/
structure LinearizationPoints (Inv : Config S L → Prop) (abs : S → A) (bound : S → L → Option R) :
    Prop where
  init : ∀ c, M.Init c.shared → (∀ i, c.loc i = M.idle) → Inv c ∧ abs c.shared = Q.init
  next : ∀ i c c', Inv c → M.ThreadStep i c c' → Inv c'
  invoke : ∀ s l, M.Invoke s l → bound s l = none
  others : ∀ i j c c', Inv c → M.ThreadStep i c c' → j ≠ i →
    bound c'.shared (c.loc j) = bound c.shared (c.loc j)
  step : ∀ i c c', Inv c → M.ThreadStep i c c' → M.Busy (c.loc i) →
    (bound c'.shared (c'.loc i) = bound c.shared (c.loc i) ∧ abs c'.shared = abs c.shared) ∨
      (bound c.shared (c.loc i) = none ∧ ∃ o r, I.op (c.loc i) = some o ∧
        bound c'.shared (c'.loc i) = some r ∧ Q.step (abs c.shared) o r (abs c'.shared))
  op : ∀ s l s' l', M.Busy l → M.Step s l s' l' → M.Busy l' → I.op l' = I.op l
  returns : ∀ s l s' l', M.Busy l → M.Step s l s' l' → ¬ M.Busy l' → bound s' l' = I.result l'

namespace LinearizationPoints

variable {e I Q} {Inv : Config S L → Prop} {abs : S → A} {bound : S → L → Option R}

theorem inv (h : LinearizationPoints M I Q Inv abs bound) (e : Execution M) (m : ℕ) :
    Inv (e.cfg m) := by
  induction m with
  | zero => exact (h.init _ e.init e.init_loc).1
  | succ m ih =>
    rcases e.next m with heq | ⟨i, hstep⟩
    · rw [heq]
      exact ih
    · exact h.next i _ _ ih hstep

/-- At the moment the thread is bound to return the result, where before it was not bound. -/
structure TakesEffect (e : Execution M) (I : Interface L Op R) (bound : S → L →
    Option R) (m i : ℕ) (o : Op) (r : R) :
    Prop where
  busy : M.Busy (e.loc m i)
  op : I.op (e.loc m i) = some o
  before : bound (e.shared m) (e.loc m i) = none
  after : bound (e.shared (m + 1)) (e.loc (m + 1) i) = some r

variable {m i : ℕ}

theorem threadStep_of_bound (h : LinearizationPoints M I Q Inv abs bound)
    (hne : bound (e.shared (m + 1)) (e.loc (m + 1) i) ≠ bound (e.shared m) (e.loc m i)) :
    M.ThreadStep i (e.cfg m) (e.cfg (m + 1)) := by
  rcases e.next m with heq | ⟨j, hstep⟩
  · exact absurd (by rw [Execution.shared, Execution.loc, heq, Execution.shared, Execution.loc]) hne
  by_cases hj : i = j
  · rw [hj]
    exact hstep
  · refine absurd ?_ hne
    rw [Execution.loc, hstep.others i hj]
    exact h.others j i _ _ (h.inv e m) hstep hj

variable {o : Op} {r : R}

theorem TakesEffect.threadStep (h : LinearizationPoints M I Q Inv abs bound)
    (he : TakesEffect e I bound m i o r) : M.ThreadStep i (e.cfg m) (e.cfg (m + 1)) :=
  h.threadStep_of_bound fun heq => by
    rw [he.before, he.after] at heq
    cases heq

theorem step_of_bound (h : LinearizationPoints M I Q Inv abs bound) (hbusy : M.Busy (e.loc m i))
    (hr : bound (e.shared m) (e.loc m i) = some r) :
    bound (e.shared (m + 1)) (e.loc (m + 1) i) = some r := by
  by_contra hne
  have hstep := h.threadStep_of_bound (e := e) (m := m) (i := i) fun heq => hne (heq.trans hr)
  rcases h.step i _ _ (h.inv e m) hstep hbusy with ⟨heq, _⟩ | ⟨hnone, _⟩
  · exact hne (heq.trans hr)
  · exact absurd (hr.symm.trans hnone) (some_ne_none r)

theorem bound_le (h : LinearizationPoints M I Q Inv abs bound) {b : ℕ} (hmb : m ≤ b)
    (hbusy : ∀ x, m ≤ x → x < b → M.Busy (e.loc x i))
    (hr : bound (e.shared m) (e.loc m i) = some r) : bound (e.shared b) (e.loc b i) = some r := by
  induction b, hmb using le_induction with
  | base => exact hr
  | succ b hmb ih =>
    exact h.step_of_bound (hbusy b hmb (lt_succ_self b)) (ih fun x hmx hxb =>
      hbusy x hmx (lt_succ_of_lt hxb))

theorem TakesEffect.unique (h : LinearizationPoints M I Q Inv abs bound) {j : ℕ} {o' : Op} {r' : R}
    (he : TakesEffect e I bound m i o r) (he' : TakesEffect e I bound m j o' r') :
    (i, o, r) = (j, o', r') := by
  have hij : i = j := by
    by_contra hij
    have heq := h.others j i _ _ (h.inv e m) (he'.threadStep h) hij
    rw [← (he'.threadStep h).others i hij] at heq
    have hafter := he.after
    have hbefore := he.before
    rw [Execution.loc, ← (he'.threadStep h).others i hij] at hbefore
    rw [Execution.shared, Execution.loc, heq] at hafter
    exact absurd (hafter.symm.trans hbefore) (some_ne_none r)
  subst hij
  rw [some_inj.1 (he.op.symm.trans he'.op), some_inj.1 (he.after.symm.trans he'.after)]

open Classical in
/-- What takes effect at a moment. -/
noncomputable def effect (e : Execution M) (I : Interface L Op R)
    (bound : S → L → Option R) (m : ℕ) : Option (ℕ × Op × R) :=
  if h : ∃ x : ℕ × Op × R, TakesEffect e I bound m x.1 x.2.1 x.2.2 then some h.choose else none

theorem effect_eq_some_iff (h : LinearizationPoints M I Q Inv abs bound) :
    effect e I bound m = some (i, o, r) ↔ TakesEffect e I bound m i o r := by
  unfold effect
  constructor
  · intro heq
    split_ifs at heq with hex
    have hspec := hex.choose_spec
    rw [some_inj.1 heq] at hspec
    exact hspec
  · intro he
    have hex : ∃ x : ℕ × Op × R, TakesEffect e I bound m x.1 x.2.1 x.2.2 := ⟨(i, o, r), he⟩
    rw [dif_pos hex]
    exact congrArg some (hex.choose_spec.unique h he)

theorem abs_of_silent (h : LinearizationPoints M I Q Inv abs bound)
    (heff : effect e I bound m = none) : abs (e.shared (m + 1)) = abs (e.shared m) := by
  rcases e.next m with heq | ⟨i, hstep⟩
  · rw [Execution.shared, heq, Execution.shared]
  rcases hstep.own with ⟨_, hs, _⟩ | ⟨hbusy, _⟩
  · rw [Execution.shared, hs, Execution.shared]
  rcases h.step i _ _ (h.inv e m) hstep hbusy with ⟨_, habs⟩ | ⟨hnone, o, r, hop, hsome, _⟩
  · exact habs
  · rw [h.effect_eq_some_iff.2 ⟨hbusy, hop, hnone, hsome⟩] at heff
    cases heff

theorem legal (h : LinearizationPoints M I Q Inv abs bound)
    (he : TakesEffect e I bound m i o r) :
    Q.step (abs (e.shared m)) o r (abs (e.shared (m + 1))) := by
  rcases h.step i _ _ (h.inv e m) (he.threadStep h) he.busy with ⟨heq, _⟩ | ⟨_, o', r',
    hop, hsome, hstep⟩
  · exact absurd (he.after.symm.trans (heq.trans he.before)) (some_ne_none r)
  · obtain rfl := some_inj.1 (hop.symm.trans he.op)
    obtain rfl := some_inj.1 (hsome.symm.trans he.after)
    exact hstep

theorem op_le (h : LinearizationPoints M I Q Inv abs bound) {a : ℕ} (ham : a ≤ m)
    (hbusy : ∀ x, a ≤ x → x ≤ m → M.Busy (e.loc x i)) : I.op (e.loc m i) = I.op (e.loc a i) := by
  induction m, ham using le_induction with
  | base => rfl
  | succ m ham ih =>
    have ih := ih fun x hax hxm => hbusy x hax (le_succ_of_le hxm)
    by_cases hne : e.loc (m + 1) i = e.loc m i
    · rw [hne]
      exact ih
    · have hb := hbusy m ham (le_succ m)
      obtain ⟨_, hs⟩ := Execution.step_of_busy hb hne
      exact (h.op _ _ _ _ hb hs (hbusy (m + 1) (le_succ_of_le ham) (Nat.le_refl _))).trans ih

theorem call_takesEffect (h : LinearizationPoints M I Q Inv abs bound) {a b : ℕ}
    (hc : e.CallOf I i a b o r) : ∃ m, a ≤ m ∧ m < b ∧ TakesEffect e I bound m i o r := by
  have ha : bound (e.shared a) (e.loc a i) = none := h.invoke _ _ hc.call.invoked
  have hb : bound (e.shared b) (e.loc b i) = some r := by
    obtain ⟨m, rfl, ham, hs⟩ := hc.call.last
    rw [h.returns _ _ _ _ (hc.call.busy m ham (lt_succ_self m)) hs hc.call.ends]
    exact hc.result
  obtain ⟨m, ham, hmb, hnone, hsome⟩ :=
    exists_first (p := fun x => bound (e.shared x) (e.loc x i) ≠ none)
    (Nat.le_of_lt hc.call.lt) (not_not.2 ha) (by rw [hb]; exact some_ne_none r)
  refine ⟨m, ham, hmb, hc.call.busy m ham hmb, ?_, not_not.1 hnone, ?_⟩
  · rw [h.op_le ham fun x hax hxm => hc.call.busy x hax (Nat.lt_of_le_of_lt hxm hmb)]
    exact hc.op
  obtain ⟨r', hr'⟩ := ne_none_iff_exists'.1 hsome
  have hle := h.bound_le (succ_le_of_lt hmb)
    (fun x hmx hxb => hc.call.busy x (Nat.le_trans ham (le_of_succ_le hmx)) hxb) hr'
  rw [hr']
  exact hle.symm.trans hb

theorem linearizes (h : LinearizationPoints M I Q Inv abs bound) (e : Execution M) :
    Linearizes e I Q (fun m => abs (e.shared m)) (effect e I bound) where
  init := (h.init _ e.init e.init_loc).2
  silent _ heff := h.abs_of_silent heff
  legal _ _ _ _ heff := h.legal (h.effect_eq_some_iff.1 heff)
  calling _ _ _ _ heff := ⟨(h.effect_eq_some_iff.1 heff).busy, (h.effect_eq_some_iff.1 heff).op⟩
  once m m' i o r o' r' hlt heff heff' := by
    by_contra hbusy
    push Not at hbusy
    have he := h.effect_eq_some_iff.1 heff
    have he' := h.effect_eq_some_iff.1 heff'
    have hle := h.bound_le (succ_le_of_lt hlt) (fun x hmx hxm =>
      hbusy x hmx (Nat.le_of_lt hxm)) he.after
    exact absurd (hle.symm.trans he'.before) (some_ne_none r)
  call i a b o r hc := by
    obtain ⟨m, ham, hmb, he⟩ := h.call_takesEffect hc
    exact ⟨m, ham, hmb, h.effect_eq_some_iff.2 he⟩

end LinearizationPoints

/-! ## Queues -/

section Fifo
variable {V : Type}

inductive FifoOp (V : Type) where
  | enqueue (value : V)
  | dequeue

/-- An enqueue returns its value, and a dequeue the oldest value, or nothing when there is none. -/
inductive FifoStep : List V → FifoOp V → Option V → List V → Prop
  | enqueue (q : List V) (value : V) : FifoStep q (.enqueue value) (some value) (q ++ [value])
  | empty : FifoStep [] .dequeue none []
  | dequeue (value : V) (q : List V) : FifoStep (value :: q) .dequeue (some value) q

def fifo (V : Type) : SeqObject (List V) (FifoOp V) (Option V) where
  init := []
  step := FifoStep

def enqueuedValue : Option (ℕ × FifoOp V × Option V) → Option V
  | some (_, .enqueue value, _) => some value
  | _ => none

def dequeuedValue : Option (ℕ × FifoOp V × Option V) → Option V
  | some (_, .dequeue, r) => r
  | _ => none

/-- The values that went in before a moment, in their order. -/
def enqueued (effect : ℕ → Option (ℕ × FifoOp V × Option V)) (m : ℕ) : List V :=
  (List.range m).filterMap fun x => enqueuedValue (effect x)

/-- The values that came out before a moment, in their order. -/
def dequeued (effect : ℕ → Option (ℕ × FifoOp V × Option V)) (m : ℕ) : List V :=
  (List.range m).filterMap fun x => dequeuedValue (effect x)

variable {e I} {state : ℕ → List V} {effect : ℕ → Option (ℕ × FifoOp V × Option V)}

theorem enqueued_succ (effect : ℕ → Option (ℕ × FifoOp V × Option V)) (m : ℕ) :
    enqueued effect (m + 1) = enqueued effect m ++ (enqueuedValue (effect m)).toList := by
  unfold enqueued
  rw [range_succ, filterMap_append]
  cases h : enqueuedValue (effect m) <;> simp [h]

theorem dequeued_succ (effect : ℕ → Option (ℕ × FifoOp V × Option V)) (m : ℕ) :
    dequeued effect (m + 1) = dequeued effect m ++ (dequeuedValue (effect m)).toList := by
  unfold dequeued
  rw [range_succ, filterMap_append]
  cases h : dequeuedValue (effect m) <;> simp [h]

theorem mem_enqueued {m : ℕ} {value : V} (h : value ∈ enqueued effect m) :
    ∃ x < m, ∃ i r, effect x = some (i, .enqueue value, r) := by
  obtain ⟨x, hx, hvalue⟩ := mem_filterMap.1 h
  refine ⟨x, mem_range.1 hx, ?_⟩
  match effect x, hvalue with
  | some (i, .enqueue value', r), hvalue =>
    obtain rfl : value' = value := some_inj.1 hvalue
    exact ⟨i, r, rfl⟩
  | some (_, .dequeue, _), hvalue => cases hvalue
  | none, hvalue => cases hvalue

/-- The values come out in the order in which they went in, each once, and the others are still
there. -/
theorem Linearizes.fifo {I : Interface L (FifoOp V) (Option V)}
    (h : Linearizes e I (fifo V) state effect) (m : ℕ) :
    enqueued effect m = dequeued effect m ++ state m := by
  induction m with
  | zero => exact h.init.symm
  | succ m ih =>
    rw [enqueued_succ, dequeued_succ, ih]
    cases heff : effect m with
    | none =>
      rw [h.silent m heff]
      exact (append_nil _).trans (congrArg (· ++ state m) (append_nil _).symm)
    | some x =>
      obtain ⟨i, o, r⟩ := x
      have hstep := h.legal m i o r heff
      generalize state (m + 1) = q' at hstep ⊢
      generalize state m = q at hstep ⊢
      cases hstep with
      | enqueue q value => simp [enqueuedValue, dequeuedValue]
      | empty => simp [enqueuedValue, dequeuedValue]
      | dequeue value q => simp [enqueuedValue, dequeuedValue]

end Fifo

end Interleaving
