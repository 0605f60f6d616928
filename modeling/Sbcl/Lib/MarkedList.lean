import Mathlib.Data.Finset.Card

/-!
# Linked lists with marked next pointers

A heap of nodes for lock-free ordered lists: a node has an immutable position in a linear order and
a next pointer; a mark on the pointer means that the node which holds it is logically deleted.

* `Reach`, `MarkedPath` : following next pointers, and doing so through marked nodes only;
* `WF fixed root h` : positions increase along every next pointer, and every unmarked node is
  reachable from the root;
* `Change fixed h h'` : what one atomic step may do (nothing, unlink a run of marked nodes, link a
  fresh node, mark a node), with `Change.wf`;
* `Le h h'` : what survives every change;
* `Present h p` : an unmarked node has position `p`; `not_present_between` rules it out between two
  adjacent nodes.
-/

namespace MarkedList

/-- The target of a next pointer. -/
inductive Ref where
  | tail
  | node (n : Nat)
  deriving DecidableEq

structure Next where
  ref : Ref
  marked : Bool
  deriving DecidableEq

/-- Nodes below `top` are allocated. -/
structure Heap (P : Type) where
  pos : Nat → P
  next : Nat → Next
  top : Nat

variable {P : Type} {h h' : Heap P} {a b c n m root left : Nat} {r r' right : Ref} {p q : P}

namespace Heap

def setNext (h : Heap P) (n : Nat) (nx : Next) : Heap P :=
  { h with next := Function.update h.next n nx }

/-- A fresh node of position `q`, put between `left` and `right`. -/
def link (h : Heap P) (left : Nat) (q : P) (right : Ref) : Heap P where
  pos := Function.update h.pos h.top q
  next := Function.update (Function.update h.next h.top ⟨right, false⟩) left ⟨.node h.top, false⟩
  top := h.top + 1

@[simp] theorem setNext_pos (nx : Next) : (h.setNext n nx).pos = h.pos := rfl

@[simp] theorem setNext_top (nx : Next) : (h.setNext n nx).top = h.top := rfl

@[simp] theorem setNext_next_self (nx : Next) : (h.setNext n nx).next n = nx := by
  simp [setNext]

theorem setNext_next_of_ne (nx : Next) (hm : m ≠ n) : (h.setNext n nx).next m = h.next m := by
  simp [setNext, hm]

@[simp] theorem link_top : (h.link left q right).top = h.top + 1 := rfl

@[simp] theorem link_pos_top : (h.link left q right).pos h.top = q := by
  simp [link]

theorem link_pos_of_lt (hn : n < h.top) : (h.link left q right).pos n = h.pos n := by
  simp [link, Nat.ne_of_lt hn]

@[simp] theorem link_next_left : (h.link left q right).next left = ⟨.node h.top, false⟩ := by
  simp [link]

theorem link_next_top (hl : left < h.top) : (h.link left q right).next h.top = ⟨right, false⟩ := by
  simp [link, (Nat.ne_of_lt hl).symm]

theorem link_next_of_ne (hn : n < h.top) (hl : n ≠ left) :
    (h.link left q right).next n = h.next n := by
  simp [link, hl, Nat.ne_of_lt hn]

end Heap

/-- The next pointer of `a`, marked or not, leads to `b`. -/
def Succ (h : Heap P) (a b : Nat) : Prop := (h.next a).ref = .node b

def Reach (h : Heap P) (a b : Nat) : Prop := Relation.ReflTransGen (Succ h) a b

/-- From `r` to `r'` through marked nodes only. -/
inductive MarkedPath (h : Heap P) : Ref → Ref → Prop
  | refl (r : Ref) : MarkedPath h r r
  | step {n : Nat} {r : Ref} : n < h.top → (h.next n).marked = true →
    MarkedPath h (h.next n).ref r →
      MarkedPath h (.node n) r

theorem MarkedPath.snoc (hp : MarkedPath h r (.node n)) (hn : n < h.top)
    (hm : (h.next n).marked = true) : MarkedPath h r (h.next n).ref := by
  generalize he : Ref.node n = r' at hp
  induction hp with
  | refl =>
    subst he
    exact .step hn hm (.refl _)
  | step hk hmk _ ih => exact .step hk hmk (ih he)

/-- An unmarked node with position `p`. -/
def Present (h : Heap P) (p : P) : Prop := ∃ n < h.top, (h.next n).marked = false ∧ h.pos n = p

theorem present_link (hl : left < h.top) (hnext : h.next left = ⟨right, false⟩) :
    Present (h.link left q right) p ↔ Present h p ∨ p = q := by
  constructor
  · rintro ⟨n, hn, hnm, rfl⟩
    rcases Nat.lt_succ_iff_lt_or_eq.mp hn with hn | rfl
    · refine Or.inl ⟨n, hn, ?_, (Heap.link_pos_of_lt hn).symm⟩
      by_cases hnl : n = left
      · rw [hnl, hnext]
      · rwa [Heap.link_next_of_ne hn hnl] at hnm
    · exact Or.inr Heap.link_pos_top
  · rintro (⟨n, hn, hnm, rfl⟩ | rfl)
    · refine ⟨n, Nat.lt_succ_of_lt hn, ?_, Heap.link_pos_of_lt hn⟩
      by_cases hnl : n = left
      · rw [hnl, Heap.link_next_left]
      · rwa [Heap.link_next_of_ne hn hnl]
    · exact ⟨h.top, Nat.lt_succ_self _, by rw [Heap.link_next_top hl], Heap.link_pos_top⟩

theorem present_unlink (hnext : h.next left = ⟨r, false⟩) :
    Present (h.setNext left ⟨r', false⟩) p ↔ Present h p := by
  refine exists_congr fun n => and_congr_right fun _ => and_congr_left fun _ => ?_
  by_cases hn : n = left
  · rw [hn, Heap.setNext_next_self, hnext]
  · rw [Heap.setNext_next_of_ne _ hn]

/-- What survives every change: allocation, positions, and the next pointers of marked nodes. -/
structure Le (h h' : Heap P) : Prop where
  top : h.top ≤ h'.top
  pos : ∀ n < h.top, h'.pos n = h.pos n
  frozen : ∀ n < h.top, (h.next n).marked = true → h'.next n = h.next n

theorem Le.refl (h : Heap P) : Le h h := ⟨Nat.le_refl _, fun _ _ => rfl, fun _ _ _ => rfl⟩

theorem Le.trans {h₁ h₂ h₃ : Heap P} (h12 : Le h₁ h₂) (h23 : Le h₂ h₃) : Le h₁ h₃ where
  top := Nat.le_trans h12.top h23.top
  pos n hn := (h23.pos n (Nat.lt_of_lt_of_le hn h12.top)).trans (h12.pos n hn)
  frozen n hn hm := by
    have h2 := h12.frozen n hn hm
    exact (h23.frozen n (Nat.lt_of_lt_of_le hn h12.top) (h2 ▸ hm)).trans h2

theorem MarkedPath.le (hp : MarkedPath h r r') (hle : Le h h') : MarkedPath h' r r' := by
  induction hp with
  | refl => exact .refl _
  | step hn hm _ ih =>
    have hf := hle.frozen _ hn hm
    exact .step (Nat.lt_of_lt_of_le hn hle.top) (hf ▸ hm) (hf ▸ ih)

theorem reach_total (ha : Reach h c a) (hb : Reach h c b) : Reach h a b ∨ Reach h b a := by
  refine Relation.ReflTransGen.total_of_right_unique (fun x y z hy hz => ?_) ha hb
  simpa [Succ, (show (h.next x).ref = .node y from hy)] using hz

theorem MarkedPath.reach (hp : MarkedPath h (.node b) r) (hr : Reach h b n)
    (hn : (h.next n).marked = false) : ∃ c, r = .node c ∧ Reach h c n := by
  generalize he : Ref.node b = r₀ at hp
  induction hp generalizing b with
  | refl => exact ⟨b, he.symm, hr⟩
  | @step k r hk hm hp ih =>
    obtain rfl : b = k := by simpa using he
    rcases Relation.ReflTransGen.cases_head hr with rfl | ⟨d, hs, hd⟩
    · simp [hn] at hm
    · exact ih hd hs.symm

section Order
variable [LinearOrder P] {fixed : P → Prop}

/-- `fixed` tells the positions whose nodes are never deleted. -/
structure WF (fixed : P → Prop) (root : Nat) (h : Heap P) : Prop where
  root_lt : root < h.top
  root_fixed : fixed (h.pos root)
  fixed_live : ∀ n < h.top, fixed (h.pos n) → (h.next n).marked = false
  sorted : ∀ n < h.top, ∀ m, Succ h n m → m < h.top ∧ h.pos n < h.pos m
  live : ∀ n < h.top, (h.next n).marked = false → Reach h root n

theorem WF.reach (hwf : WF fixed root h) (ha : a < h.top) (hr : Reach h a b) :
    b < h.top ∧ (a = b ∨ h.pos a < h.pos b) := by
  induction hr with
  | refl => exact ⟨ha, Or.inl rfl⟩
  | tail _ hs ih =>
    obtain ⟨hlt, hpos⟩ := hwf.sorted _ ih.1 _ hs
    refine ⟨hlt, Or.inr ?_⟩
    rcases ih.2 with rfl | h
    · exact hpos
    · exact lt_trans h hpos

theorem WF.reach_pos_le (hwf : WF fixed root h) (ha : a < h.top) (hr : Reach h a b) :
    h.pos a ≤ h.pos b := by
  rcases (hwf.reach ha hr).2 with rfl | h
  · exact le_refl _
  · exact le_of_lt h

theorem WF.markedPath (hwf : WF fixed root h) (hp : MarkedPath h r r')
    (hr : ∀ n, r = .node n → n < h.top ∧ p < h.pos n) : ∀ n, r' = .node n → n < h.top ∧
      p < h.pos n := by
  induction hp with
  | refl => exact hr
  | @step k r hk hm hp ih =>
    refine ih fun n hn => ?_
    obtain ⟨hlt, hpos⟩ := hwf.sorted k hk n hn
    exact ⟨hlt, lt_trans (hr k rfl).2 hpos⟩

theorem WF.reach_congr (hwf : WF fixed root h) (ha : a < h.top) (hr : Reach h a n)
    (hsame : ∀ x < h.top, h.pos a ≤ h.pos x → h.pos x < h.pos n →
      (h'.next x).ref = (h.next x).ref) :
    Reach h' a n := by
  induction hr using Relation.ReflTransGen.head_induction_on with
  | refl => exact .refl
  | @head x y hxy hyn ih =>
    obtain ⟨hy, hpos⟩ := hwf.sorted x ha y hxy
    have hyn' := hwf.reach_pos_le hy hyn
    have hx := hsame x ha (le_refl _) (lt_of_lt_of_le hpos hyn')
    refine .head (hx.trans hxy) (ih hy fun z hz hyz hzn => ?_)
    exact hsame z hz (le_trans (le_of_lt hpos) hyz) hzn

theorem WF.split (hwf : WF fixed root h) (hl : left < h.top) (hlm : (h.next left).marked = false)
    (hn : n < h.top) (hnm : (h.next n).marked = false) :
    h.pos n ≤ h.pos left ∨ ∃ b, (h.next left).ref = .node b ∧ Reach h b n := by
  rcases reach_total (hwf.live left hl hlm) (hwf.live n hn hnm) with hr | hr
  · rcases Relation.ReflTransGen.cases_head hr with rfl | ⟨b, hb, hbn⟩
    · exact Or.inl (le_refl _)
    · exact Or.inr ⟨b, hb, hbn⟩
  · exact Or.inl (hwf.reach_pos_le hn hr)

theorem WF.pos_injective (hwf : WF fixed root h) (ha : a < h.top) (hb : b < h.top)
    (ham : (h.next a).marked = false) (hbm : (h.next b).marked = false)
    (hp : h.pos a = h.pos b) : a = b := by
  rcases reach_total (hwf.live a ha ham) (hwf.live b hb hbm) with hr | hr
  · rcases (hwf.reach ha hr).2 with h | h
    · exact h
    · exact absurd hp (ne_of_lt h)
  · rcases (hwf.reach hb hr).2 with h | h
    · exact h.symm
    · exact absurd hp.symm (ne_of_lt h)

theorem WF.not_present_between (hwf : WF fixed root h) (hl : left < h.top)
    (hnext : h.next left = ⟨right, false⟩)
    (hlq : h.pos left < q) (hqr : ∀ n, right = .node n → q < h.pos n) : ¬ Present h q := by
  rintro ⟨n, hn, hm, rfl⟩
  rcases hwf.split hl (by rw [hnext]) hn hm with hle | ⟨b, hb, hbn⟩
  · exact absurd hlq (not_lt.mpr hle)
  · have hb' : right = .node b := by simpa [hnext] using hb
    have hbt := (hwf.sorted left hl b hb).1
    exact absurd (hqr b hb') (not_lt.mpr (hwf.reach_pos_le hbt hbn))

/-- The nodes at or after the position of a node. -/
def NodesFrom (h : Heap P) : Ref → Finset Nat
  | .tail => ∅
  | .node k => (Finset.range h.top).filter fun n => h.pos k ≤ h.pos n

theorem nodesFrom_next (hwf : WF fixed root h) {k : Nat} (hk : k < h.top) :
    (NodesFrom h (h.next k).ref).card < (NodesFrom h (.node k)).card := by
  have hmem : k ∈ NodesFrom h (.node k) := by simp [NodesFrom, hk]
  refine Finset.card_lt_card ⟨fun n hn => ?_, fun hsub => ?_⟩
  · cases hr : (h.next k).ref with
    | tail => simp [hr, NodesFrom] at hn
    | node m =>
      have hlt := (hwf.sorted k hk m hr).2
      simp only [hr, NodesFrom, Finset.mem_filter] at hn ⊢
      exact ⟨hn.1, le_trans (le_of_lt hlt) hn.2⟩
  · have hk' := hsub hmem
    cases hr : (h.next k).ref with
    | tail => simp [hr, NodesFrom] at hk'
    | node m =>
      have hlt := (hwf.sorted k hk m hr).2
      simp only [hr, NodesFrom, Finset.mem_filter] at hk'
      exact absurd hlt (not_lt.mpr hk'.2)

/-! ## Changes -/

/-- Nothing happens, or a run of marked nodes after `left` is skipped. -/
inductive Tidy (h : Heap P) : Heap P → Prop
  | same : Tidy h h
  | unlink (left : Nat) (r r' : Ref) : left < h.top → h.next left = ⟨r, false⟩ → MarkedPath h r r' →
      Tidy h (h.setNext left ⟨r', false⟩)

inductive Change (fixed : P → Prop) (h : Heap P) : Heap P → Prop
  | tidy {h' : Heap P} : Tidy h h' → Change fixed h h'
  | link (left : Nat) (right : Ref) (q : P) : left < h.top → h.next left = ⟨right, false⟩ →
    h.pos left < q →
      (∀ n, right = .node n → q < h.pos n) → Change fixed h (h.link left q right)
  | mark (n : Nat) : n < h.top → ¬ fixed (h.pos n) → (h.next n).marked = false →
      Change fixed h (h.setNext n ⟨(h.next n).ref, true⟩)

omit [LinearOrder P] in
theorem Tidy.le (ht : Tidy h h') : Le h h' := by
  cases ht with
  | same => exact Le.refl h
  | unlink left r r' hl hnext hp =>
    refine ⟨Nat.le_refl _, fun _ _ => rfl, fun k hk hkm => Heap.setNext_next_of_ne _ ?_⟩
    rintro rfl
    simp [hnext] at hkm

theorem Change.le (hc : Change fixed h h') : Le h h' := by
  cases hc with
  | tidy ht => exact ht.le
  | link left right q hl hnext hlq hqr =>
    refine ⟨by simp, fun n hn => Heap.link_pos_of_lt hn, fun n hn hm => ?_⟩
    refine Heap.link_next_of_ne hn ?_
    rintro rfl
    simp [hnext] at hm
  | mark n hn hfix hm =>
    refine ⟨Nat.le_refl _, fun _ _ => rfl, fun k hk hkm => Heap.setNext_next_of_ne _ ?_⟩
    rintro rfl
    simp [hm] at hkm

/-- Redirecting the pointer of one unmarked node `left` keeps every unmarked node reachable that
either comes no later than `left` or is reached from the new successor. -/
theorem WF.reach_redirect (hwf : WF fixed root h) (hl : left < h.top)
    (hlm : (h.next left).marked = false) (hn : n < h.top) (hnm : (h.next n).marked = false)
    (hsame : ∀ x < h.top, x ≠ left → (h'.next x).ref = (h.next x).ref)
    (hjump : ∀ b, (h.next left).ref = .node b → Reach h b n → ∃ c < h.top, h.pos left < h.pos c ∧
      Reach h c n ∧ Reach h' left c) : Reach h' root n := by
  have hbefore : ∀ k < h.top, (h.next k).marked = false → h.pos k ≤ h.pos left →
      Reach h' root k := by
    intro k hk hkm hkl
    refine hwf.reach_congr hwf.root_lt (hwf.live k hk hkm) fun x hx _ hxk => hsame x hx ?_
    rintro rfl
    exact absurd hxk (not_lt.mpr hkl)
  rcases hwf.split hl hlm hn hnm with hle | ⟨b, hb, hbn⟩
  · exact hbefore n hn hnm hle
  obtain ⟨c, hc, hlc, hcn, hjump⟩ := hjump b hb hbn
  have hafter : Reach h' c n := by
    refine hwf.reach_congr hc hcn fun x hx hcx _ => hsame x hx ?_
    rintro rfl
    exact absurd hlc (not_lt.mpr hcx)
  exact ((hbefore left hl hlm (le_refl _)).trans hjump).trans hafter

theorem WF.link (hwf : WF fixed root h) (hl : left < h.top) (hnext : h.next left = ⟨right, false⟩)
    (hlq : h.pos left < q) (hqr : ∀ n, right = .node n → q < h.pos n) :
    WF fixed root (h.link left q right) := by
  have hlm : (h.next left).marked = false := by rw [hnext]
  have hsame : ∀ x < h.top, x ≠ left → ((h.link left q right).next x).ref = (h.next x).ref := by
    intro x hx hxl
    rw [Heap.link_next_of_ne hx hxl]
  have hnew : Succ (h.link left q right) left h.top := by simp [Succ]
  have hold : ∀ n < h.top, (h.next n).marked = false → Reach (h.link left q right) root n := by
    intro n hn hnm
    refine hwf.reach_redirect hl hlm hn hnm hsame fun b hb hbn => ?_
    obtain ⟨hbt, hlb⟩ := hwf.sorted left hl b hb
    refine ⟨b, hbt, hlb, hbn, .tail (.single hnew) ?_⟩
    rw [Succ, Heap.link_next_top hl]
    simpa [hnext] using hb
  refine ⟨?_, ?_, ?_, ?_, ?_⟩
  · exact Nat.lt_succ_of_lt hwf.root_lt
  · rw [Heap.link_pos_of_lt hwf.root_lt]
    exact hwf.root_fixed
  · intro n hn hfix
    rcases Nat.lt_succ_iff_lt_or_eq.mp hn with hn | rfl
    · rw [Heap.link_pos_of_lt hn] at hfix
      by_cases hnl : n = left
      · rw [hnl, Heap.link_next_left]
      · rw [Heap.link_next_of_ne hn hnl]
        exact hwf.fixed_live n hn hfix
    · rw [Heap.link_next_top hl]
  · intro n hn m hs
    rcases Nat.lt_succ_iff_lt_or_eq.mp hn with hn | rfl
    · by_cases hnl : n = left
      · obtain rfl : h.top = m := by simpa [Succ, hnl] using hs
        rw [hnl, Heap.link_pos_of_lt hl, Heap.link_pos_top]
        exact ⟨Nat.lt_succ_self _, hlq⟩
      rw [Succ, Heap.link_next_of_ne hn hnl] at hs
      obtain ⟨hm, hpos⟩ := hwf.sorted n hn m hs
      rw [Heap.link_pos_of_lt hn, Heap.link_pos_of_lt hm]
      exact ⟨Nat.lt_succ_of_lt hm, hpos⟩
    · rw [Succ, Heap.link_next_top hl] at hs
      have hm := (hwf.sorted left hl m (by rw [Succ, hnext]; exact hs)).1
      rw [Heap.link_pos_top, Heap.link_pos_of_lt hm]
      exact ⟨Nat.lt_succ_of_lt hm, hqr m hs⟩
  · intro n hn hnm
    rcases Nat.lt_succ_iff_lt_or_eq.mp hn with hn | rfl
    · by_cases hnl : n = left
      · exact hold n hn (hnl ▸ hlm)
      · rw [Heap.link_next_of_ne hn hnl] at hnm
        exact hold n hn hnm
    · exact (hold left hl hlm).tail hnew

theorem WF.mark (hwf : WF fixed root h) (hn : n < h.top) (hfix : ¬ fixed (h.pos n)) :
    WF fixed root (h.setNext n ⟨(h.next n).ref, true⟩) := by
  have href : ∀ x, ((h.setNext n ⟨(h.next n).ref, true⟩).next x).ref = (h.next x).ref := by
    intro x
    by_cases hx : x = n
    · rw [hx, Heap.setNext_next_self]
    · rw [Heap.setNext_next_of_ne _ hx]
  refine ⟨hwf.root_lt, hwf.root_fixed, ?_, ?_, ?_⟩
  · intro k hk hkf
    have hkn : k ≠ n := by
      rintro rfl
      exact hfix hkf
    rw [Heap.setNext_next_of_ne _ hkn]
    exact hwf.fixed_live k hk hkf
  · intro k hk m hs
    exact hwf.sorted k hk m ((href k).symm.trans hs)
  · intro k hk hkm
    have hkn : k ≠ n := by
      rintro rfl
      simp at hkm
    rw [Heap.setNext_next_of_ne _ hkn] at hkm
    exact hwf.reach_congr hwf.root_lt (hwf.live k hk hkm) fun x _ _ _ => href x

theorem WF.unlink (hwf : WF fixed root h) (hl : left < h.top) (hnext : h.next left = ⟨r, false⟩)
    (hp : MarkedPath h r r') : WF fixed root (h.setNext left ⟨r', false⟩) := by
  have hlm : (h.next left).marked = false := by rw [hnext]
  have hafter : ∀ c, r' = .node c → c < h.top ∧ h.pos left < h.pos c := by
    refine hwf.markedPath hp fun b hb => hwf.sorted left hl b ?_
    rw [Succ, hnext]
    exact hb
  have hsame : ∀ x < h.top, x ≠ left → ((h.setNext left ⟨r', false⟩).next x).ref =
      (h.next x).ref := by
    intro x _ hxl
    rw [Heap.setNext_next_of_ne _ hxl]
  have hmark : ∀ k, ((h.setNext left ⟨r', false⟩).next k).marked = (h.next k).marked := by
    intro k
    by_cases hk : k = left
    · rw [hk, Heap.setNext_next_self, hlm]
    · rw [Heap.setNext_next_of_ne _ hk]
  refine ⟨hwf.root_lt, hwf.root_fixed, ?_, ?_, ?_⟩
  · intro k hk hkf
    rw [hmark]
    exact hwf.fixed_live k hk hkf
  · intro k hk m hs
    by_cases hkl : k = left
    · subst hkl
      rw [Succ, Heap.setNext_next_self] at hs
      exact hafter m hs
    · rw [Succ, Heap.setNext_next_of_ne _ hkl] at hs
      exact hwf.sorted k hk m hs
  · intro k hk hkm
    rw [hmark] at hkm
    refine hwf.reach_redirect hl hlm hk hkm hsame fun b hb hbk => ?_
    have hrb : r = .node b := by simpa [hnext] using hb
    subst hrb
    obtain ⟨c, hc, hck⟩ := hp.reach hbk hkm
    obtain ⟨hct, hlc⟩ := hafter c hc
    refine ⟨c, hct, hlc, hck, .single ?_⟩
    rw [Succ, Heap.setNext_next_self]
    exact hc

theorem Tidy.wf (ht : Tidy h h') (hwf : WF fixed root h) : WF fixed root h' := by
  cases ht with
  | same => exact hwf
  | unlink left r r' hl hnext hp => exact hwf.unlink hl hnext hp

theorem Change.wf (hc : Change fixed h h') (hwf : WF fixed root h) : WF fixed root h' := by
  cases hc with
  | tidy ht => exact ht.wf hwf
  | link left right q hl hnext hlq hqr => exact hwf.link hl hnext hlq hqr
  | mark n hn hfix hm => exact hwf.mark hn hfix

omit [LinearOrder P] in
theorem Tidy.present (ht : Tidy h h') : Present h' p ↔ Present h p := by
  cases ht with
  | same => exact Iff.rfl
  | unlink left r r' hl hnext hp => exact present_unlink hnext

theorem WF.present_mark (hwf : WF fixed root h) (hn : n < h.top) (hnm : (h.next n).marked = false) :
    Present (h.setNext n ⟨(h.next n).ref, true⟩) p ↔ Present h p ∧ p ≠ h.pos n := by
  constructor
  · rintro ⟨k, hk, hkm, rfl⟩
    have hkn : k ≠ n := by
      rintro rfl
      simp at hkm
    rw [Heap.setNext_next_of_ne _ hkn] at hkm
    exact ⟨⟨k, hk, hkm, rfl⟩, fun hp => hkn (hwf.pos_injective hk hn hkm hnm hp)⟩
  · rintro ⟨⟨k, hk, hkm, rfl⟩, hne⟩
    refine ⟨k, hk, ?_, rfl⟩
    rw [Heap.setNext_next_of_ne]
    · exact hkm
    · rintro rfl
      exact hne rfl

theorem Change.unmarked (hc : Change fixed h h') (hwf : WF fixed root h) (hn : n < h.top)
    (hnm : (h.next n).marked = false) (hp : Present h' (h.pos n)) : (h'.next n).marked = false := by
  cases hc with
  | tidy ht =>
    cases ht with
    | same => exact hnm
    | unlink left r r' hl hnext hpath =>
      by_cases hnl : n = left
      · rw [hnl, Heap.setNext_next_self]
      · rw [Heap.setNext_next_of_ne _ hnl]
        exact hnm
  | link left right q hl hnext hlq hqr =>
    by_cases hnl : n = left
    · rw [hnl, Heap.link_next_left]
    · rw [Heap.link_next_of_ne hn hnl]
      exact hnm
  | mark k hk hfix hkm =>
    have hpk := ((hwf.present_mark hk hkm).mp hp).2
    rw [Heap.setNext_next_of_ne]
    · exact hnm
    · rintro rfl
      exact hpk rfl

end Order

end MarkedList
