import Sbcl.Concurrency.Queue
import Mathlib.Data.List.Perm.Subperm
import Mathlib.Order.Basic

/-!
# The queue is linearizable

* `Linked` : the nodes that were ever linked, with the head and the tail among them;
* `Local` : what a thread between two steps knows; `Apart` : what two threads do not share;
* `Consistent.next` : every step keeps them;
* `contents` : the values behind the head, which the linearization takes for the sequential queue;
* `queue_run` : every run is linearizable to the queue.
-/

namespace Sbcl.Concurrency

open Function Interleaving List Nat
open Option (some_inj)

variable {V : Type} {dummy : V} {q q' : Queue V} {nodes nodes' : List ℕ} {hd hd' tl tl' n p : ℕ}

/-- The CDR of a node that the given one follows. -/
def linkTo (next : Option ℕ) : Cdr := next.elim .nil .cons

theorem linkTo_eq_nil {next : Option ℕ} : linkTo next = .nil ↔ next = none := by
  cases next <;> simp [linkTo]

theorem linkTo_eq_cons {next : Option ℕ} : linkTo next = .cons n ↔ next = some n := by
  cases next <;> simp [linkTo]

/-- The nodes in the order in which they were linked; the head is at `hd` and the tail at `tl`. -/
structure Linked (q : Queue V) (nodes : List ℕ) (hd tl : ℕ) : Prop where
  nodup : nodes.Nodup
  lt_top : ∀ n ∈ nodes, n < q.top
  head : nodes[hd]? = some q.head
  tail : nodes[tl]? = some q.tail
  next : ∀ p n, hd ≤ p → nodes[p]? = some n → q.cdr n = linkTo nodes[p + 1]?
  past : ∀ p n, p < hd → nodes[p]? = some n → q.cdr n = .deadEnd ∨ q.cdr n = linkTo nodes[p + 1]?

namespace Linked

theorem position_unique (h : Linked q nodes hd tl) {p' : ℕ} (hp : nodes[p]? = some n)
    (hp' : nodes[p']? = some n) : p = p' :=
  (getElem?_inj (List.getElem?_eq_some_iff.1 hp).1 h.nodup).1 (hp.trans hp'.symm)

theorem mem (hp : nodes[p]? = some n) : n ∈ nodes := mem_of_getElem? hp

theorem eq_cons (h : Linked q nodes hd tl) {next : ℕ} (hp : nodes[p]? = some n)
    (hcdr : q.cdr n = .cons next) : nodes[p + 1]? = some next := by
  by_cases hhd : hd ≤ p
  · exact linkTo_eq_cons.1 ((h.next p n hhd hp).symm.trans hcdr)
  rcases h.past p n (Nat.lt_of_not_le hhd) hp with hdead | hlink
  · rw [hdead] at hcdr
    cases hcdr
  · exact linkTo_eq_cons.1 (hlink.symm.trans hcdr)

theorem eq_nil (h : Linked q nodes hd tl) (hp : nodes[p]? = some n) (hcdr : q.cdr n = .nil) :
    p + 1 = nodes.length ∧ hd ≤ p := by
  have hlt := (List.getElem?_eq_some_iff.1 hp).1
  have hhd := (List.getElem?_eq_some_iff.1 h.head).1
  have hnone : nodes[p + 1]? = none := by
    by_cases hle : hd ≤ p
    · exact linkTo_eq_nil.1 ((h.next p n hle hp).symm.trans hcdr)
    rcases h.past p n (Nat.lt_of_not_le hle) hp with hdead | hlink
    · rw [hdead] at hcdr
      cases hcdr
    · exact linkTo_eq_nil.1 (hlink.symm.trans hcdr)
  rw [List.getElem?_eq_none_iff] at hnone
  omega

end Linked

/-- The nodes from a link on. -/
def Queue.walk (q : Queue V) : ℕ → Cdr → List ℕ
  | fuel + 1, .cons node => node :: q.walk fuel (q.cdr node)
  | _, _ => []

/-- The values behind the head. -/
def Queue.contents (q : Queue V) : List V := (q.walk q.top (q.cdr q.head)).map q.car

theorem Linked.walk_eq (h : Linked q nodes hd tl) (fuel : ℕ) (hle : hd ≤ p) (hp : p < nodes.length)
    (hfuel : nodes.length ≤ p + 1 + fuel) :
    q.walk fuel (linkTo nodes[p + 1]?) = nodes.drop (p + 1) := by
  induction fuel generalizing p with
  | zero =>
    rw [drop_eq_nil_of_le (by omega)]
    rfl
  | succ fuel ih =>
    by_cases hlt : p + 1 < nodes.length
    · rw [getElem?_eq_getElem hlt, drop_eq_getElem_cons hlt]
      show _ :: q.walk fuel (q.cdr _) = _
      rw [h.next (p + 1) _ (le_succ_of_le hle) (getElem?_eq_getElem hlt),
        ih (le_succ_of_le hle) hlt (by omega)]
    · rw [getElem?_eq_none (Nat.le_of_not_lt hlt), drop_eq_nil_of_le (Nat.le_of_not_lt hlt)]
      rfl

theorem Linked.length_le (h : Linked q nodes hd tl) : nodes.length ≤ q.top := by
  have hsub := (subperm_of_subset h.nodup fun n hn => mem_range.2 (h.lt_top n hn)).length_le
  rwa [length_range] at hsub

theorem Linked.contents_eq (h : Linked q nodes hd tl) :
    q.contents = (nodes.drop (hd + 1)).map q.car := by
  have hlt := (List.getElem?_eq_some_iff.1 h.head).1
  unfold Queue.contents
  rw [h.next hd _ (Nat.le_refl hd) h.head,
    h.walk_eq q.top (Nat.le_refl hd) hlt (by have := h.length_le; omega)]

/-! ## Stores -/

namespace Linked

theorem setCar (h : Linked q nodes hd tl) (node : ℕ) (value : V) :
    Linked (q.setCar node value) nodes hd tl :=
  ⟨h.nodup, h.lt_top, h.head, h.tail, h.next, h.past⟩

theorem cons (h : Linked q nodes hd tl) (value : V) : Linked (q.cons value) nodes hd tl := by
  have hcdr : ∀ p n, nodes[p]? = some n → (q.cons value).cdr n = q.cdr n := fun p n hp =>
    Queue.cons_cdr_of_ne q value (Nat.ne_of_lt (h.lt_top n (mem hp)))
  refine ⟨h.nodup, fun n hn => lt_succ_of_lt (h.lt_top n hn), h.head, h.tail, fun p n hle hp => ?_,
    fun p n hlt hp => ?_⟩
  · rw [hcdr p n hp]
    exact h.next p n hle hp
  · rw [hcdr p n hp]
    exact h.past p n hlt hp

theorem setTail (h : Linked q nodes hd tl) {new : ℕ} (hnew : nodes[tl']? = some new) :
    Linked { q with tail := new } nodes hd tl' := ⟨h.nodup, h.lt_top, h.head, hnew, h.next, h.past⟩

theorem setHead (h : Linked q nodes hd tl) {next : ℕ} (hnext : nodes[hd + 1]? = some next) :
    Linked { q with head := next } nodes (hd + 1) tl := by
  refine ⟨h.nodup, h.lt_top, hnext, h.tail, fun p n hle hp => h.next p n (le_of_succ_le hle) hp,
    fun p n hlt hp => ?_⟩
  by_cases hle : hd ≤ p
  · exact Or.inr (h.next p n hle hp)
  · exact h.past p n (Nat.lt_of_not_le hle) hp

theorem setDeadEnd (h : Linked q nodes hd tl) (hp : nodes[p]? = some n) (hlt : p < hd) :
    Linked (q.setCdr n .deadEnd) nodes hd tl := by
  refine ⟨h.nodup, h.lt_top, h.head, h.tail, fun p' n' hle hp' => ?_, fun p' n' hlt' hp' => ?_⟩
  · have hne : n' ≠ n := by
      intro heq
      rw [heq] at hp'
      have := h.position_unique hp hp'
      omega
    rw [Queue.setCdr_cdr_of_ne _ _ hne]
    exact h.next p' n' hle hp'
  · by_cases hne : n' = n
    · rw [hne, Queue.setCdr_cdr_self]
      exact Or.inl rfl
    · rw [Queue.setCdr_cdr_of_ne _ _ hne]
      exact h.past p' n' hlt' hp'

theorem link (h : Linked q nodes hd tl) {new : ℕ} (hp : nodes[p]? = some n) (hcdr : q.cdr n = .nil)
    (hnew : new ∉ nodes)
    (hlt : new < q.top) (hnil : q.cdr new = .nil) :
    Linked (q.setCdr n (.cons new)) (nodes ++ [new]) hd tl := by
  obtain ⟨hlast, hhd⟩ := h.eq_nil hp hcdr
  have hold : ∀ p' n', nodes[p']? = some n' → (nodes ++ [new])[p']? = some n' := fun p' n' hp' => by
    rw [getElem?_append_left (List.getElem?_eq_some_iff.1 hp').1]
    exact hp'
  refine ⟨?_, ?_, hold _ _ h.head, hold _ _ h.tail, fun p' n' hle hp' => ?_,
    fun p' n' hlt' hp' => ?_⟩
  · rw [nodup_append]
    refine ⟨h.nodup, pairwise_singleton _ new, fun a ha b hb => ?_⟩
    rw [mem_singleton.1 hb]
    intro heq
    rw [heq] at ha
    exact hnew ha
  · intro n' hn'
    rcases mem_append.1 hn' with hn' | hn'
    · exact h.lt_top n' hn'
    · rw [mem_singleton.1 hn']
      exact hlt
  · by_cases hlen : p' < nodes.length
    · rw [getElem?_append_left hlen] at hp'
      by_cases heq : p' = p
      · rw [heq, hp, some_inj] at hp'
        rw [← hp', heq, hlast, getElem?_append_right (Nat.le_refl _), Nat.sub_self,
          Queue.setCdr_cdr_self]
        rfl
      have hne : n' ≠ n := by
        intro heq'
        rw [heq'] at hp'
        exact heq (h.position_unique hp' hp)
      rw [Queue.setCdr_cdr_of_ne _ _ hne, getElem?_append_left (by omega)]
      exact h.next p' n' hle hp'
    · rw [getElem?_append_right (Nat.le_of_not_lt hlen)] at hp'
      have hz : p' - nodes.length = 0 := by
        have := (List.getElem?_eq_some_iff.1 hp').1
        rw [length_singleton] at this
        omega
      rw [hz] at hp'
      obtain rfl : new = n' := some_inj.1 hp'
      have hne : new ≠ n := by
        intro heq
        rw [heq] at hnew
        exact hnew (mem hp)
      rw [Queue.setCdr_cdr_of_ne _ _ hne,
        getElem?_eq_none (by rw [length_append, length_singleton]; omega)]
      exact hnil
  · have hlen : p' < nodes.length := by omega
    rw [getElem?_append_left hlen] at hp'
    have hne : n' ≠ n := by
      intro heq
      rw [heq] at hp'
      have := h.position_unique hp' hp
      omega
    rw [Queue.setCdr_cdr_of_ne _ _ hne, getElem?_append_left (by omega)]
    exact h.past p' n' hlt' hp'

end Linked

/-! ## Threads -/

namespace QueueThread

/-- The node that an enqueue has yet to link. -/
def unlinked : QueueThread V → Option ℕ
  | .enqueue _ (.readTail new) | .enqueue _ (.casCdr new _) => some new
  | _ => none

/-- The node of which a dequeue has taken the value, or is about to. -/
def taken : QueueThread V → Option ℕ
  | .dequeue (.readCar _ next) | .dequeue (.setCdr _ next _) | .dequeue (.setCar next _) =>
  some next
  | _ => none

/-- An enqueue that has linked its node and not yet moved the tail. -/
def Trailing : QueueThread V → Prop
  | .enqueue _ (.setTail _) => True
  | _ => False

end QueueThread

/-- A node that no thread but its own reaches. -/
structure Fresh (q : Queue V) (nodes : List ℕ) (value : V) (new : ℕ) : Prop where
  lt : new < q.top
  notMem : new ∉ nodes
  car : q.car new = value
  cdr : q.cdr new = .nil

/-- What a thread knows. -/
def Local (q : Queue V) (nodes : List ℕ) (hd tl : ℕ) : QueueThread V → Prop
  | .enqueue value (.readTail new) => Fresh q nodes value new
  | .enqueue value (.casCdr new tail) => Fresh q nodes value new ∧ ∃ p ≤ tl, nodes[p]? = some tail
  | .enqueue _ (.setTail new) => nodes[tl + 1]? = some new ∧ nodes.length = tl + 2
  | .dequeue (.readCdr head) => ∃ p ≤ hd, nodes[p]? = some head
  | .dequeue (.casHead head next) => ∃ p ≤ hd, nodes[p]? = some head ∧ nodes[p + 1]? = some next
  | .dequeue (.readCar head next) | .dequeue (.setCdr head next _) =>
    ∃ p < hd, nodes[p]? = some head ∧ nodes[p + 1]? = some next
  | .dequeue (.setCar next _) => ∃ p < hd, nodes[p + 1]? = some next
  | _ => True

/-- What two threads do not share. -/
structure Apart (l l' : QueueThread V) : Prop where
  unlinked : ∀ n, l.unlinked = some n → l'.unlinked ≠ some n
  taken : ∀ n, l.taken = some n → l'.taken ≠ some n
  trailing : l.Trailing → ¬ l'.Trailing

theorem Apart.symm {l l' : QueueThread V} (h : Apart l l') : Apart l' l :=
  ⟨fun n hn hn' => h.unlinked n hn' hn, fun n hn hn' => h.taken n hn' hn,
    fun ht ht' => h.trailing ht' ht⟩

/-- The steps of other threads leave what a thread knows: nodes are only added, the head and the
tail move on, an unlinked node is left alone, and nothing moves the tail while it trails. -/
theorem Local.grow {l : QueueThread V} (h : Local q nodes hd tl l)
    (hnodes : ∀ p n : ℕ, nodes[p]? = some n → nodes'[p]? = some n) (hhd : hd ≤ hd') (htl : tl ≤ tl')
    (hfresh : ∀ n value, l.unlinked = some n → Fresh q nodes value n → Fresh q' nodes' value n)
    (htrailing : l.Trailing → nodes'.length = nodes.length ∧ tl' = tl) :
    Local q' nodes' hd' tl' l := by
  match l with
  | .idle | .enqueued _ | .dequeued _ | .enqueue _ .cons | .dequeue .readHead => trivial
  | .enqueue value (.readTail new) => exact hfresh new value rfl h
  | .enqueue value (.casCdr new tail) =>
    obtain ⟨hnew, p, hle, hp⟩ := h
    exact ⟨hfresh new value rfl hnew, p, Nat.le_trans hle htl, hnodes p tail hp⟩
  | .enqueue _ (.setTail new) =>
    obtain ⟨hlen, heq⟩ := htrailing trivial
    rw [Local, hlen, heq]
    exact ⟨hnodes _ _ h.1, h.2⟩
  | .dequeue (.readCdr head) =>
    obtain ⟨p, hle, hp⟩ := h
    exact ⟨p, Nat.le_trans hle hhd, hnodes p head hp⟩
  | .dequeue (.casHead head next) =>
    obtain ⟨p, hle, hp, hp'⟩ := h
    exact ⟨p, Nat.le_trans hle hhd, hnodes p head hp, hnodes _ next hp'⟩
  | .dequeue (.readCar head next) | .dequeue (.setCdr head next _) =>
    obtain ⟨p, hlt, hp, hp'⟩ := h
    exact ⟨p, Nat.lt_of_lt_of_le hlt hhd, hnodes p head hp, hnodes _ next hp'⟩
  | .dequeue (.setCar next _) =>
    obtain ⟨p, hlt, hp⟩ := h
    exact ⟨p, Nat.lt_of_lt_of_le hlt hhd, hnodes _ next hp⟩

theorem Fresh.of_eq {value : V} {new : ℕ} (h : Fresh q nodes value new) (htop : q.top ≤ q'.top)
    (hnot : new ∉ nodes')
    (hcar : q'.car new = q.car new) (hcdr : q'.cdr new = q.cdr new) : Fresh q' nodes' value new :=
  ⟨Nat.lt_of_lt_of_le h.lt htop, hnot, hcar.trans h.car, hcdr.trans h.cdr⟩

/-! ## Steps -/

abbrev QueueConfig (V : Type) := Config (Queue V) (QueueThread V)

/-- The nodes, the threads, and the tail, which is the last node unless a thread trails. -/
structure Consistent (c : QueueConfig V) (nodes : List ℕ) (hd tl : ℕ) : Prop where
  linked : Linked c.shared nodes hd tl
  knows : ∀ i, Local c.shared nodes hd tl (c.loc i)
  apart : ∀ i j, i ≠ j → Apart (c.loc i) (c.loc j)
  last : tl + 1 = nodes.length ∨ ∃ i, (c.loc i).Trailing

variable {c c' : QueueConfig V} {i : ℕ}

theorem Consistent.step (h : Consistent c nodes hd tl) (hothers : ∀ j, j ≠ i → c'.loc j = c.loc j)
    (hlinked : Linked c'.shared nodes' hd' tl') (hown : Local c'.shared nodes' hd' tl' (c'.loc i))
    (hnodes : ∀ p n : ℕ, nodes[p]? = some n → nodes'[p]? = some n) (hhd : hd ≤ hd') (htl : tl ≤ tl')
    (hfresh : ∀ j, j ≠ i → ∀ n value, (c.loc j).unlinked = some n → Fresh c.shared nodes value n →
      Fresh c'.shared nodes' value n)
    (htrailing : ∀ j, j ≠ i → (c.loc j).Trailing → nodes'.length = nodes.length ∧ tl' = tl)
    (hapart : ∀ j, j ≠ i → Apart (c'.loc i) (c.loc j))
    (hlast : tl' + 1 = nodes'.length ∨ ∃ j, (c'.loc j).Trailing) :
    Consistent c' nodes' hd' tl' := by
  refine ⟨hlinked, fun j => ?_, fun j k hjk => ?_, hlast⟩
  · by_cases hj : j = i
    · rw [hj]
      exact hown
    · rw [hothers j hj]
      exact (h.knows j).grow hnodes hhd htl (hfresh j hj) (htrailing j hj)
  · by_cases hj : j = i
    · rw [hj] at hjk ⊢
      rw [hothers k (Ne.symm hjk)]
      exact hapart k (Ne.symm hjk)
    rw [hothers j hj]
    by_cases hk : k = i
    · rw [hk]
      exact (hapart j hj).symm
    · rw [hothers k hk]
      exact h.apart j k hjk

theorem Consistent.read (h : Consistent c nodes hd tl) (hothers : ∀ j, j ≠ i → c'.loc j = c.loc j)
    (hshared : c'.shared = c.shared) (hown : Local c.shared nodes hd tl (c'.loc i))
    (hunlinked : ∀ n, (c'.loc i).unlinked = some n → (c.loc i).unlinked = some n)
    (htaken : ∀ n, (c'.loc i).taken = some n → (c.loc i).taken = some n)
    (htrailing : (c'.loc i).Trailing ↔ (c.loc i).Trailing) : Consistent c' nodes hd tl := by
  refine h.step hothers (hshared ▸ h.linked) (hshared ▸ hown) (fun _ _ hp => hp) (Nat.le_refl hd)
    (Nat.le_refl tl)
    (fun _ _ _ _ _ hf => hshared ▸ hf) (fun _ _ _ => ⟨rfl, rfl⟩) (fun j hj => ?_) ?_
  · have hapart := h.apart i j (Ne.symm hj)
    exact ⟨fun n hn => hapart.unlinked n (hunlinked n hn), fun n hn => hapart.taken n (htaken n hn),
      fun ht => hapart.trailing (htrailing.1 ht)⟩
  rcases h.last with hlast | ⟨j, hj⟩
  · exact Or.inl hlast
  refine Or.inr ⟨j, ?_⟩
  by_cases hji : j = i
  · rw [hji] at hj ⊢
    exact htrailing.2 hj
  · rw [hothers j hji]
    exact hj

section Stores
variable (h : Consistent c nodes hd tl) (hothers : ∀ j, j ≠ i → c'.loc j = c.loc j)
include h hothers

theorem Consistent.cons {value : V} (hs : c'.shared = c.shared.cons value)
    (hl : c.loc i = .enqueue value .cons)
    (hl' : c'.loc i = .enqueue value (.readTail c.shared.top)) : Consistent c' nodes hd tl := by
  have hfresh : ∀ n v, Fresh c.shared nodes v n → Fresh c'.shared nodes v n := fun n v hf => by
    have hne : n ≠ c.shared.top := Nat.ne_of_lt hf.lt
    rw [hs]
    exact hf.of_eq (le_succ _) hf.notMem (Queue.cons_car_of_ne _ _ hne)
      (Queue.cons_cdr_of_ne _ _ hne)
  refine h.step hothers ?_ ?_ (fun _ _ hp => hp) (Nat.le_refl hd) (Nat.le_refl tl)
    (fun _ _ n v _ => hfresh n v) (fun _ _ _ => ⟨rfl, rfl⟩) (fun j hj => ?_) ?_
  · rw [hs]
    exact h.linked.cons value
  · rw [hs, hl']
    refine ⟨lt_succ_self _, fun hmem => ?_, Queue.cons_car_self _ _, Queue.cons_cdr_self _ _⟩
    exact Nat.lt_irrefl _ (h.linked.lt_top _ hmem)
  · rw [hl']
    refine ⟨fun n hn hn' => ?_, (fun _ hn => nomatch hn), (fun ht => nomatch ht)⟩
    -- The nodes of other threads were allocated before.
    obtain rfl : c.shared.top = n := some_inj.1 hn
    have hk := h.knows j
    generalize c.loc j = l at hk hn'
    match l, hn' with
    | .enqueue v (.readTail new), hn' =>
      obtain rfl : new = c.shared.top := some_inj.1 hn'
      exact Nat.lt_irrefl _ (Fresh.lt hk)
    | .enqueue v (.casCdr new _), hn' =>
      obtain rfl : new = c.shared.top := some_inj.1 hn'
      exact Nat.lt_irrefl _ (Fresh.lt hk.1)
  · rcases h.last with hlast | ⟨j, hj⟩
    · exact Or.inl hlast
    refine Or.inr ⟨j, ?_⟩
    by_cases hji : j = i
    · rw [hji, hl] at hj
      cases hj
    · rw [hothers j hji]
      exact hj

theorem Consistent.link {value : V} {new tail : ℕ}
    (hs : c'.shared = c.shared.setCdr tail (.cons new))
    (hl : c.loc i = .enqueue value (.casCdr new tail))
    (hl' : c'.loc i = .enqueue value (.setTail new))
    (hnil : c.shared.cdr tail = .nil) : Consistent c' (nodes ++ [new]) hd tl := by
  obtain ⟨hnew, p, hle, hp⟩ : Local c.shared nodes hd tl (.enqueue value (.casCdr new tail)) :=
    hl ▸ h.knows i
  obtain ⟨hlast, -⟩ := h.linked.eq_nil hp hnil
  have htl := (List.getElem?_eq_some_iff.1 h.linked.tail).1
  have hlen : nodes.length = tl + 1 := by omega
  have hno : ∀ j, ¬ (c.loc j).Trailing := fun j hj => by
    have hk := h.knows j
    generalize c.loc j = l at hk hj
    match l, hj with
    | .enqueue _ (.setTail _), _ =>
      have := hk.2
      omega
  have hold : ∀ p n : ℕ, nodes[p]? = some n → (nodes ++ [new])[p]? = some n := fun p n hp => by
    rw [getElem?_append_left (List.getElem?_eq_some_iff.1 hp).1]
    exact hp
  refine h.step hothers ?_ ?_ hold (Nat.le_refl hd) (Nat.le_refl tl) (fun j hj n v hn hf => ?_)
    (fun j _ ht => absurd ht (hno j)) (fun j hj => ?_) (Or.inr ⟨i, ?_⟩)
  · rw [hs]
    exact h.linked.link hp hnil hnew.notMem hnew.lt hnew.cdr
  · rw [hl', Local, ← hlen, getElem?_append_right (Nat.le_refl _), Nat.sub_self,
      length_append, hlen]
    exact ⟨rfl, rfl⟩
  · have hne : n ≠ new := by
      intro heq
      rw [heq] at hn
      exact (h.apart i j (Ne.symm hj)).unlinked new (by rw [hl]; rfl) hn
    have hne' : n ≠ tail := by
      intro heq
      rw [heq] at hf
      exact hf.notMem (Linked.mem hp)
    rw [hs]
    refine hf.of_eq (Nat.le_refl _) (fun hmem => ?_) rfl (Queue.setCdr_cdr_of_ne _ _ hne')
    rcases mem_append.1 hmem with hmem | hmem
    · exact hf.notMem hmem
    · exact hne (mem_singleton.1 hmem)
  · rw [hl']
    exact ⟨(fun _ hn => nomatch hn), (fun _ hn => nomatch hn), fun _ => hno j⟩
  · rw [hl']
    trivial

theorem Consistent.setTail {value : V} {new : ℕ} (hs : c'.shared = { c.shared with tail := new })
    (hl : c.loc i = .enqueue value (.setTail new)) (hl' : c'.loc i = .enqueued value) :
    Consistent c' nodes hd (tl + 1) := by
  obtain ⟨hnew, hlen⟩ : Local c.shared nodes hd tl (.enqueue value (.setTail new)) := hl ▸ h.knows i
  refine h.step hothers ?_ ?_ (fun _ _ hp => hp) (Nat.le_refl hd) (le_succ tl)
    (fun _ _ n v _ hf => ?_)
    (fun j hj ht => absurd ht ((h.apart i j (Ne.symm hj)).trailing ?_)) (fun j _ => ?_)
      (Or.inl hlen.symm)
  · rw [hs]
    exact h.linked.setTail hnew
  · rw [hl']
    trivial
  · rw [hs]
    exact hf.of_eq (Nat.le_refl _) hf.notMem rfl rfl
  · rw [hl]
    trivial
  · rw [hl']
    exact ⟨(fun _ hn => nomatch hn), (fun _ hn => nomatch hn), (fun ht => nomatch ht)⟩

theorem Consistent.dequeueStep {pc : DequeuePc V} (hl : c.loc i = .dequeue pc)
    (hlinked : Linked c'.shared nodes hd' tl) (hown : Local c'.shared nodes hd' tl (c'.loc i))
    (hhd : hd ≤ hd')
    (hfresh : ∀ n value, Fresh c.shared nodes value n → Fresh c'.shared nodes value n)
    (hunlinked : (c'.loc i).unlinked = none) (htrailing : ¬ (c'.loc i).Trailing)
    (htaken : ∀ j, j ≠ i → ∀ n, (c'.loc i).taken = some n → (c.loc j).taken ≠ some n) :
    Consistent c' nodes hd' tl := by
  refine h.step hothers hlinked hown (fun _ _ hp => hp) hhd (Nat.le_refl tl)
    (fun _ _ n v _ => hfresh n v)
    (fun _ _ _ => ⟨rfl, rfl⟩) (fun j hj => ⟨fun n hn => ?_, htaken j hj,
      fun ht => absurd ht htrailing⟩) ?_
  · rw [hunlinked] at hn
    cases hn
  rcases h.last with hlast | ⟨j, hj⟩
  · exact Or.inl hlast
  refine Or.inr ⟨j, ?_⟩
  by_cases hji : j = i
  · rw [hji, hl] at hj
    cases hj
  · rw [hothers j hji]
    exact hj

theorem Consistent.setHead {head next : ℕ} (hs : c'.shared = { c.shared with head := next })
    (hl : c.loc i = .dequeue (.casHead head next)) (hl' : c'.loc i = .dequeue (.readCar head next))
    (heq : c.shared.head = head) : nodes[hd + 1]? = some next ∧
    Consistent c' nodes (hd + 1) tl := by
  obtain ⟨p, -, hp, hnext⟩ : Local c.shared nodes hd tl (.dequeue (.casHead head next)) :=
    hl ▸ h.knows i
  obtain rfl : p = hd := h.linked.position_unique hp (heq ▸ h.linked.head)
  refine ⟨hnext, h.dequeueStep hothers hl ?_ ?_ (le_succ p) (fun n v hf => ?_) ?_ ?_
    fun j hj n hn hn' => ?_⟩
  · rw [hs]
    exact h.linked.setHead hnext
  · rw [hl']
    exact ⟨p, lt_succ_self p, hp, hnext⟩
  · rw [hs]
    exact hf.of_eq (Nat.le_refl _) hf.notMem rfl rfl
  · rw [hl']
    rfl
  · rw [hl']
    exact fun ht => nomatch ht
  · rw [hl'] at hn
    obtain rfl : next = n := some_inj.1 hn
    have hk := h.knows j
    generalize c.loc j = l at hk hn'
    have htaken : ∃ p', p' < p ∧ nodes[p' + 1]? = some next := by
      match l, hn' with
      | .dequeue (.readCar _ next'), hn' | .dequeue (.setCdr _ next' _), hn' =>
        obtain ⟨p', hlt, -, hp'⟩ := hk
        obtain rfl : next' = next := some_inj.1 hn'
        exact ⟨p', hlt, hp'⟩
      | .dequeue (.setCar next' _), hn' =>
        obtain ⟨p', hlt, hp'⟩ := hk
        obtain rfl : next' = next := some_inj.1 hn'
        exact ⟨p', hlt, hp'⟩
    obtain ⟨p', hlt, hp'⟩ := htaken
    have := h.linked.position_unique hnext hp'
    omega

theorem Consistent.setDeadEnd {head next : ℕ} {value : V}
    (hs : c'.shared = c.shared.setCdr head .deadEnd)
    (hl : c.loc i = .dequeue (.setCdr head next value))
    (hl' : c'.loc i = .dequeue (.setCar next value)) : Consistent c' nodes hd tl := by
  obtain ⟨p, hlt, hp, hnext⟩ : Local c.shared nodes hd tl (.dequeue (.setCdr head next value)) :=
    hl ▸ h.knows i
  refine h.dequeueStep hothers hl ?_ ?_ (Nat.le_refl hd) (fun n v hf => ?_) ?_ ?_
    fun j hj n hn => ?_
  · rw [hs]
    exact h.linked.setDeadEnd hp hlt
  · rw [hl']
    exact ⟨p, hlt, hnext⟩
  · have hne : n ≠ head := by
      intro heq
      rw [heq] at hf
      exact hf.notMem (Linked.mem hp)
    rw [hs]
    exact hf.of_eq (Nat.le_refl _) hf.notMem rfl (Queue.setCdr_cdr_of_ne _ _ hne)
  · rw [hl']
    rfl
  · rw [hl']
    exact fun ht => nomatch ht
  · rw [hl'] at hn
    exact (h.apart i j (Ne.symm hj)).taken n (by rw [hl]; exact hn)

theorem Consistent.setCar {next : ℕ} {value : V} {r : Option V}
    (hs : c'.shared = c.shared.setCar next dummy)
    (hl : c.loc i = .dequeue (.setCar next value)) (hl' : c'.loc i = .dequeued r) :
    Consistent c' nodes hd tl := by
  obtain ⟨p, hlt, hnext⟩ : Local c.shared nodes hd tl (.dequeue (.setCar next value)) :=
    hl ▸ h.knows i
  refine h.dequeueStep hothers hl ?_ ?_ (Nat.le_refl hd) (fun n v hf => ?_) ?_ ?_
    fun j hj n hn => ?_
  · rw [hs]
    exact h.linked.setCar next dummy
  · rw [hl']
    trivial
  · have hne : n ≠ next := by
      intro heq
      rw [heq] at hf
      exact hf.notMem (Linked.mem hnext)
    rw [hs]
    exact hf.of_eq (Nat.le_refl _) hf.notMem (Queue.setCar_car_of_ne _ _ hne) rfl
  · rw [hl']
    rfl
  · rw [hl']
    exact fun ht => nomatch ht
  · rw [hl'] at hn
    cases hn

end Stores

/-! ## Linearization points -/

/-- The result that a thread is bound to return: an enqueue has linked its node, a dequeue has moved
the head. -/
def bound (q : Queue V) : QueueThread V → Option (Option V)
  | .enqueue value (.setTail _) => some (some value)
  | .dequeue (.readCar _ next) => some (some (q.car next))
  | .dequeue (.setCdr _ _ value) | .dequeue (.setCar _ value) => some (some value)
  | .enqueued r => some (some r)
  | .dequeued r => some r
  | _ => none

theorem Linked.contents_congr (h : Linked q nodes hd tl) (h' : Linked q' nodes hd tl')
    (hcar : ∀ p n, hd < p → nodes[p]? = some n → q'.car n = q.car n) :
    q'.contents = q.contents := by
  rw [h.contents_eq, h'.contents_eq]
  refine map_congr_left fun n hn => ?_
  obtain ⟨k, hk⟩ := getElem?_of_mem hn
  rw [getElem?_drop] at hk
  exact hcar _ n (by omega) hk

theorem Linked.contents_link (h : Linked q nodes hd tl) {new : ℕ}
    (h' : Linked q' (nodes ++ [new]) hd tl')
    (hcar : q'.car = q.car) : q'.contents = q.contents ++ [q.car new] := by
  have hlt := (List.getElem?_eq_some_iff.1 h.head).1
  rw [h.contents_eq, h'.contents_eq, hcar, drop_append_of_le_length hlt, map_append]
  rfl

theorem Linked.contents_cons (h : Linked q nodes hd tl) {next : ℕ}
    (h' : Linked q' nodes (hd + 1) tl')
    (hnext : nodes[hd + 1]? = some next) (hcar : q'.car = q.car) :
    q.contents = q.car next :: q'.contents := by
  obtain ⟨hlt, hget⟩ := List.getElem?_eq_some_iff.1 hnext
  rw [h.contents_eq, h'.contents_eq, hcar, drop_eq_getElem_cons hlt, map_cons, hget]

/-- What a step of a busy thread does to the sequential queue. -/
def Acts (c c' : QueueConfig V) (i : ℕ) : Prop :=
  (bound c'.shared (c'.loc i) = bound c.shared (c.loc i) ∧ c'.shared.contents = c.shared.contents) ∨
    (bound c.shared (c.loc i) = none ∧ ∃ o r, queueInterface.op (c.loc i) = some o ∧
      bound c'.shared (c'.loc i) = some r ∧ FifoStep c.shared.contents o r c'.shared.contents)

theorem Consistent.acts_read {l l' : QueueThread V} (h : Consistent c nodes hd tl)
    (hothers : ∀ j, j ≠ i → c'.loc j = c.loc j)
    (hl : c.loc i = l) (hl' : c'.loc i = l') (hs : c'.shared = c.shared)
    (hown : Local c.shared nodes hd tl l')
    (hunlinked : l'.unlinked = l.unlinked) (htaken : l'.taken = l.taken)
    (htrailing : l'.Trailing ↔ l.Trailing)
    (hbound : bound c.shared l' = bound c.shared l) : ∃ nodes' hd' tl',
      Consistent c' nodes' hd' tl' ∧ Acts c c' i := by
  subst hl hl'
  refine ⟨nodes, hd, tl, h.read hothers hs hown ?_ ?_ htrailing,
    Or.inl ⟨by rw [hs, hbound], by rw [hs]⟩⟩
  · exact fun n hn => hunlinked ▸ hn
  · exact fun n hn => htaken ▸ hn

theorem Consistent.enqueueStep (h : Consistent c nodes hd tl)
    (hothers : ∀ j, j ≠ i → c'.loc j = c.loc j) {value : V}
    {pc : EnqueuePc} (hl : c.loc i = .enqueue value pc)
    (hstep : (c'.shared, c'.loc i) = queueStep dummy c.shared (.enqueue value pc)) :
    ∃ nodes' hd' tl', Consistent c' nodes' hd' tl' ∧ Acts c c' i := by
  cases pc with
  | cons =>
    obtain ⟨hs, hl'⟩ := Prod.mk.inj hstep
    have h' := h.cons hothers hs hl hl'
    refine ⟨nodes, hd, tl, h',
      Or.inl ⟨by rw [hl, hl']; rfl, h.linked.contents_congr h'.linked fun p n _ hp => ?_⟩⟩
    rw [hs]
    exact Queue.cons_car_of_ne _ _ (Nat.ne_of_lt (h.linked.lt_top n (Linked.mem hp)))
  | readTail new =>
    obtain ⟨hs, hl'⟩ := Prod.mk.inj hstep
    have hk : Local c.shared nodes hd tl (.enqueue value (.readTail new)) := hl ▸ h.knows i
    exact h.acts_read hothers hl hl' hs ⟨hk, tl, Nat.le_refl tl, h.linked.tail⟩ rfl rfl Iff.rfl rfl
  | casCdr new tail =>
    by_cases hnil : c.shared.cdr tail = .nil
    · rw [queueStep, Concurrency.enqueueStep, if_pos hnil] at hstep
      obtain ⟨hs, hl'⟩ := Prod.mk.inj hstep
      have hk : Local c.shared nodes hd tl (.enqueue value (.casCdr new tail)) := hl ▸ h.knows i
      have h' := h.link hothers hs hl hl' hnil
      refine ⟨nodes ++ [new], hd, tl, h',
        Or.inr ⟨by rw [hl]; rfl, .enqueue value, some value, ?_, ?_, ?_⟩⟩
      · rw [hl]
        rfl
      · rw [hl']
        rfl
      · rw [h.linked.contents_link h'.linked (by rw [hs]; rfl), hk.1.car]
        exact .enqueue _ value
    · rw [queueStep, Concurrency.enqueueStep, if_neg hnil] at hstep
      obtain ⟨hs, hl'⟩ := Prod.mk.inj hstep
      have hk : Local c.shared nodes hd tl (.enqueue value (.casCdr new tail)) := hl ▸ h.knows i
      exact h.acts_read hothers hl hl' hs hk.1 rfl rfl Iff.rfl rfl
  | setTail new =>
    obtain ⟨hs, hl'⟩ := Prod.mk.inj hstep
    have h' := h.setTail hothers hs hl hl'
    refine ⟨nodes, hd, tl + 1, h',
      Or.inl ⟨by rw [hl, hl']; rfl, h.linked.contents_congr h'.linked fun p n _ _ => ?_⟩⟩
    rw [hs]

theorem Consistent.dequeueStep_acts (h : Consistent c nodes hd tl)
    (hothers : ∀ j, j ≠ i → c'.loc j = c.loc j) {pc : DequeuePc V} (hl : c.loc i = .dequeue pc)
    (hstep : (c'.shared, c'.loc i) = queueStep dummy c.shared (.dequeue pc)) :
    ∃ nodes' hd' tl', Consistent c' nodes' hd' tl' ∧ Acts c c' i := by
  cases pc with
  | readHead =>
    obtain ⟨hs, hl'⟩ := Prod.mk.inj hstep
    exact h.acts_read hothers hl hl' hs ⟨hd, Nat.le_refl hd, h.linked.head⟩ rfl rfl Iff.rfl rfl
  | readCdr head =>
    obtain ⟨p, hle, hp⟩ : Local c.shared nodes hd tl (.dequeue (.readCdr head)) := hl ▸ h.knows i
    rw [queueStep, Concurrency.dequeueStep] at hstep
    cases hcdr : c.shared.cdr head with
    | nil =>
      rw [hcdr] at hstep
      obtain ⟨hs, hl'⟩ := Prod.mk.inj hstep
      refine ⟨nodes, hd, tl, h.read hothers hs ?_ ?_ ?_ ?_,
        Or.inr ⟨by rw [hl]; rfl, .dequeue, none, ?_, ?_, ?_⟩⟩
      · rw [hl']
        trivial
      · rw [hl, hl']
        simp [QueueThread.ofDequeue, QueueThread.unlinked]
      · rw [hl, hl']
        simp [QueueThread.ofDequeue, QueueThread.taken]
      · rw [hl, hl']
        simp [QueueThread.ofDequeue, QueueThread.Trailing]
      · rw [hl]
        rfl
      · rw [hl']
        rfl
      · -- The head is the last node, since the head does not pass a node without a next one.
        obtain ⟨hlast, hhd⟩ := h.linked.eq_nil hp hcdr
        obtain rfl : p = hd := Nat.le_antisymm hle hhd
        have hempty : c.shared.contents = [] := by
          rw [h.linked.contents_eq, hlast, drop_length]
          rfl
        rw [hs, hempty]
        exact .empty
    | cons next =>
      rw [hcdr] at hstep
      obtain ⟨hs, hl'⟩ := Prod.mk.inj hstep
      exact h.acts_read hothers hl hl' hs ⟨p, hle, hp, h.linked.eq_cons hp hcdr⟩ rfl rfl Iff.rfl rfl
    | deadEnd =>
      rw [hcdr] at hstep
      obtain ⟨hs, hl'⟩ := Prod.mk.inj hstep
      exact h.acts_read hothers hl hl' hs trivial rfl rfl Iff.rfl rfl
  | casHead head next =>
    by_cases heq : c.shared.head = head
    · rw [queueStep, Concurrency.dequeueStep, if_pos heq] at hstep
      obtain ⟨hs, hl'⟩ := Prod.mk.inj hstep
      obtain ⟨hnext, h'⟩ := h.setHead hothers hs hl hl' heq
      refine ⟨nodes, hd + 1, tl, h',
        Or.inr ⟨by rw [hl]; rfl, .dequeue, some (c.shared.car next), ?_, ?_, ?_⟩⟩
      · rw [hl]
        rfl
      · rw [hl', hs]
        rfl
      · rw [h.linked.contents_cons h'.linked hnext (by rw [hs])]
        exact .dequeue _ _
    · rw [queueStep, Concurrency.dequeueStep, if_neg heq] at hstep
      obtain ⟨hs, hl'⟩ := Prod.mk.inj hstep
      exact h.acts_read hothers hl hl' hs trivial rfl rfl Iff.rfl rfl
  | readCar head next =>
    obtain ⟨hs, hl'⟩ := Prod.mk.inj hstep
    have hk : Local c.shared nodes hd tl (.dequeue (.readCar head next)) := hl ▸ h.knows i
    exact h.acts_read hothers hl hl' hs hk rfl rfl Iff.rfl rfl
  | setCdr head next value =>
    obtain ⟨hs, hl'⟩ := Prod.mk.inj hstep
    have h' := h.setDeadEnd hothers hs hl hl'
    refine ⟨nodes, hd, tl, h',
      Or.inl ⟨by rw [hl, hl']; rfl, h.linked.contents_congr h'.linked fun p n _ _ => ?_⟩⟩
    rw [hs]
    rfl
  | setCar next value =>
    obtain ⟨hs, hl'⟩ := Prod.mk.inj hstep
    obtain ⟨p', hlt', hnext⟩ : Local c.shared nodes hd tl (.dequeue (.setCar next value)) :=
      hl ▸ h.knows i
    have h' := h.setCar hothers hs hl hl'
    refine ⟨nodes, hd, tl, h',
      Or.inl ⟨by rw [hl, hl']; rfl, h.linked.contents_congr h'.linked fun p n hlt hp => ?_⟩⟩
    have hne : n ≠ next := by
      intro heq
      rw [heq] at hp
      have := h.linked.position_unique hp hnext
      omega
    rw [hs]
    exact Queue.setCar_car_of_ne _ _ hne

/-- Only a new node and a node that the thread has taken get another value. -/
theorem queueStep_car (q : Queue V) (l : QueueThread V) :
    (∀ n, l.taken ≠ some n → n ≠ q.top → (queueStep dummy q l).1.car n = q.car n) := by
  intro n hn htop
  match l with
  | .idle | .enqueued _ | .dequeued _ => rfl
  | .enqueue value .cons => exact Queue.cons_car_of_ne _ _ htop
  | .enqueue value (.readTail _) | .enqueue value (.setTail _) => rfl
  | .enqueue value (.casCdr new tail) =>
    rw [queueStep, enqueueStep]
    split_ifs <;> rfl
  | .dequeue .readHead | .dequeue (.readCar _ _) | .dequeue (.setCdr _ _ _) => rfl
  | .dequeue (.readCdr head) =>
    rw [queueStep, dequeueStep]
    cases q.cdr head <;> rfl
  | .dequeue (.casHead head next) =>
    rw [queueStep, dequeueStep]
    split_ifs <;> rfl
  | .dequeue (.setCar next value) =>
    have hne : n ≠ next := by
      intro heq
      rw [heq] at hn
      exact hn rfl
    exact Queue.setCar_car_of_ne _ _ hne

theorem bound_congr {l : QueueThread V} (hcar : ∀ n, l.taken = some n → q'.car n = q.car n) :
    bound q' l = bound q l := by
  match l with
  | .dequeue (.readCar _ next) => exact congrArg (fun v => some (some v)) (hcar next rfl)
  | .idle | .enqueued _ | .dequeued _ | .enqueue _ .cons | .enqueue _
    (.readTail _) | .enqueue _ (.casCdr _ _)
  | .enqueue _ (.setTail _) | .dequeue .readHead | .dequeue (.readCdr _) | .dequeue (.casHead _ _)
  | .dequeue (.setCdr _ _ _) | .dequeue (.setCar _ _) => rfl

theorem Local.taken_lt {l : QueueThread V} (h : Local q nodes hd tl l) (hq : Linked q nodes hd tl)
    (hn : l.taken = some n) : n < q.top := by
  match l, hn with
  | .dequeue (.readCar _ next), hn | .dequeue (.setCdr _ next _), hn =>
    obtain ⟨p, -, -, hp⟩ := h
    obtain rfl : next = n := some_inj.1 hn
    exact hq.lt_top next (Linked.mem hp)
  | .dequeue (.setCar next _), hn =>
    obtain ⟨p, -, hp⟩ := h
    obtain rfl : next = n := some_inj.1 hn
    exact hq.lt_top next (Linked.mem hp)

theorem consistent_makeQueue (hs : c.shared = makeQueue dummy) (hl : ∀ i, c.loc i = .idle) :
    Consistent c [0] 0 0 := by
  refine ⟨?_, fun i => ?_, fun i j _ => ?_, Or.inl rfl⟩
  · rw [hs]
    refine ⟨pairwise_singleton _ 0, fun n hn => ?_, rfl, rfl, fun p n _ hp => ?_,
      fun p n hlt => absurd hlt (Nat.not_lt_zero p)⟩
    · rw [mem_singleton.1 hn]
      exact Nat.one_pos
    · have hlt := (List.getElem?_eq_some_iff.1 hp).1
      rw [getElem?_eq_none (by rw [length_singleton] at hlt ⊢; omega)]
      rfl
  · rw [hl]
    trivial
  · rw [hl]
    exact ⟨(fun _ hn => nomatch hn), (fun _ hn => nomatch hn), (fun ht => nomatch ht)⟩

theorem Consistent.invoke (h : Consistent c nodes hd tl) (hothers : ∀ j, j ≠ i → c'.loc j = c.loc j)
    (hrest : ¬ (c.loc i).Busy) (hs : c'.shared = c.shared) (hinv : QueueInvoke (c'.loc i)) :
    Consistent c' nodes hd tl := by
  have htrailing : ¬ (c.loc i).Trailing := by
    intro ht
    generalize c.loc i = l at hrest ht
    match l, ht with
    | .enqueue _ (.setTail _), _ => exact hrest trivial
  have hnew : Local c.shared nodes hd tl (c'.loc i) ∧ (c'.loc i).unlinked = none ∧
    (c'.loc i).taken = none ∧
      ¬ (c'.loc i).Trailing := by
    generalize c'.loc i = l at hinv
    cases hinv <;> exact ⟨trivial, rfl, rfl, id⟩
  refine h.read hothers hs hnew.1 (fun n hn => ?_) (fun n hn => ?_)
    (iff_of_false hnew.2.2.2 htrailing)
  · rw [hnew.2.1] at hn
    cases hn
  · rw [hnew.2.2.1] at hn
    cases hn

theorem Consistent.next (h : Consistent c nodes hd tl)
    (hstep : (queueMachine dummy).ThreadStep i c c') :
    ∃ nodes' hd' tl', Consistent c' nodes' hd' tl' ∧ ((c.loc i).Busy → Acts c c' i) := by
  rcases hstep.own with ⟨hrest, hs, hinv⟩ | ⟨hbusy, hs⟩
  · exact ⟨nodes, hd, tl, h.invoke hstep.others hrest hs hinv, fun hbusy => absurd hbusy hrest⟩
  cases hl : c.loc i with
  | idle | enqueued r | dequeued r =>
    rw [hl] at hbusy
    cases hbusy
  | enqueue value pc =>
    rw [hl] at hs
    obtain ⟨nodes', hd', tl', h', hacts⟩ := h.enqueueStep hstep.others hl hs
    exact ⟨nodes', hd', tl', h', fun _ => hacts⟩
  | dequeue pc =>
    rw [hl] at hs
    obtain ⟨nodes', hd', tl', h', hacts⟩ := h.dequeueStep_acts hstep.others hl hs
    exact ⟨nodes', hd', tl', h', fun _ => hacts⟩

theorem op_ofEnqueue {value : V} {s : Status EnqueuePc V}
    (h : (QueueThread.ofEnqueue value s).Busy) :
    queueInterface.op (.ofEnqueue value s) = some (.enqueue value) := by
  cases s with
  | running pc => rfl
  | returned r => exact absurd h id

theorem op_ofDequeue {s : Status (DequeuePc V) (Option V)} (h : (QueueThread.ofDequeue s).Busy) :
    queueInterface.op (.ofDequeue s) = some .dequeue := by
  cases s with
  | running pc => rfl
  | returned r => exact absurd h id

theorem bound_ofEnqueue {value : V} {s : Status EnqueuePc V}
    (h : ¬ (QueueThread.ofEnqueue value s).Busy) :
    bound q (.ofEnqueue value s) = queueInterface.result (.ofEnqueue value s) := by
  cases s with
  | running pc => exact absurd trivial h
  | returned r => rfl

theorem bound_ofDequeue {s : Status (DequeuePc V) (Option V)}
    (h : ¬ (QueueThread.ofDequeue s).Busy) :
    bound q (.ofDequeue s) = queueInterface.result (.ofDequeue s) := by
  cases s with
  | running pc => exact absurd trivial h
  | returned r => rfl

theorem queue_linearizationPoints : LinearizationPoints (queueMachine dummy) queueInterface (fifo V)
    (fun c => ∃ nodes hd tl, Consistent c nodes hd tl) Queue.contents bound where
  init c hs hl := by
    have h := consistent_makeQueue hs hl
    refine ⟨⟨[0], 0, 0, h⟩, ?_⟩
    rw [h.linked.contents_eq]
    rfl
  next i c c' h hstep := by
    obtain ⟨nodes, hd, tl, h⟩ := h
    obtain ⟨nodes', hd', tl', h', -⟩ := h.next hstep
    exact ⟨nodes', hd', tl', h'⟩
  invoke q l hinv := by cases hinv <;> rfl
  others i j c c' h hstep hj := by
    obtain ⟨nodes, hd, tl, h⟩ := h
    refine bound_congr fun n hn => ?_
    rcases hstep.own with ⟨-, hs, -⟩ | ⟨-, hs⟩
    · rw [hs]
    · rw [show c'.shared = (queueStep dummy c.shared (c.loc i)).1 from congrArg Prod.fst hs]
      exact queueStep_car _ _ n ((h.apart j i hj).taken n hn)
        (Nat.ne_of_lt ((h.knows j).taken_lt h.linked hn))
  step i c c' h hstep hbusy := by
    obtain ⟨nodes, hd, tl, h⟩ := h
    obtain ⟨-, -, -, -, hacts⟩ := h.next hstep
    exact hacts hbusy
  op q l q' l' hbusy hs hbusy' := by
    obtain rfl : l' = (queueStep dummy q l).2 := congrArg Prod.snd hs
    match l, hbusy with
    | .enqueue value pc, _ => exact op_ofEnqueue hbusy'
    | .dequeue pc, _ => exact op_ofDequeue hbusy'
  returns q l q' l' hbusy hs hrest := by
    obtain rfl : l' = (queueStep dummy q l).2 := congrArg Prod.snd hs
    match l, hbusy with
    | .enqueue value pc, _ => exact bound_ofEnqueue hrest
    | .dequeue pc, _ => exact bound_ofDequeue hrest

/-! ## Runs -/

/-- A run of any number of threads on one queue, which starts empty. -/
abbrev QueueRun (dummy : V) := Execution (queueMachine dummy)

variable {e : QueueRun dummy}

/-- At the moment the compare-and-swap of an enqueue links its node. -/
def LinksAt (e : QueueRun dummy) (m i : ℕ) (value : V) : Prop :=
  ∃ new tail, e.loc m i = .enqueue value (.casCdr new tail) ∧
    e.loc (m + 1) i = .enqueue value (.setTail new)

theorem LinksAt.takesEffect {m : ℕ} {value : V} (h : LinksAt e m i value) :
    LinearizationPoints.TakesEffect e queueInterface bound m i (.enqueue value) (some value) := by
  obtain ⟨new, tail, hl, hl'⟩ := h
  refine ⟨?_, ?_, ?_, ?_⟩
  · rw [hl]
    trivial
  · rw [hl]
    rfl
  · rw [hl]
    rfl
  · rw [hl']
    rfl

theorem linksAt_of_takesEffect {m : ℕ} {value : V} {r : Option V}
    (h : LinearizationPoints.TakesEffect e queueInterface bound m i (.enqueue value) r) :
    LinksAt e m i value := by
  obtain ⟨pc, hl⟩ : ∃ pc, e.loc m i = .enqueue value pc := by
    have hop := h.op
    generalize e.loc m i = l at hop
    match l, hop with
    | .enqueue value' pc, hop =>
      obtain rfl : value' = value := FifoOp.enqueue.inj (some_inj.1 hop)
      exact ⟨pc, rfl⟩
  have hbefore := h.before
  have hafter := h.after
  rcases (h.threadStep queue_linearizationPoints).own with ⟨hrest, -⟩ | ⟨-, hs⟩
  · exact absurd h.busy hrest
  replace hs : (e.shared (m + 1), e.loc (m + 1) i) = queueStep dummy (e.shared m) (e.loc m i) := hs
  rw [hl] at hs hbefore
  cases pc with
  | cons | readTail new =>
    rw [(Prod.mk.inj hs).2] at hafter
    cases hafter
  | setTail new => cases hbefore
  | casCdr new tail =>
    by_cases hnil : (e.shared m).cdr tail = .nil
    · rw [queueStep, Concurrency.enqueueStep, if_pos hnil] at hs
      exact ⟨new, tail, hl, (Prod.mk.inj hs).2⟩
    · rw [queueStep, Concurrency.enqueueStep, if_neg hnil] at hs
      rw [(Prod.mk.inj hs).2] at hafter
      cases hafter

/-- Every run is linearizable to the queue: the enqueues take effect by their links, and at every
moment the values linked are, in their order, those that dequeues took and those behind the head. A
dequeue that finds nothing has seen a moment when there was nothing behind the head, and one that
returns a value returns one that was linked. -/
theorem queue_run (e : QueueRun dummy) :
    ∃ effect : ℕ → Option (ℕ × FifoOp V × Option V),
      Linearizes e queueInterface (fifo V) (fun m => (e.shared m).contents) effect ∧
      (∀ m i value, (∃ r, effect m = some (i, .enqueue value, r)) ↔ LinksAt e m i value) ∧
      (∀ m, enqueued effect m = dequeued effect m ++ (e.shared m).contents) ∧
      (∀ i a b, e.CallOf queueInterface i a b .dequeue none → ∃ m, a ≤ m ∧ m < b ∧
        (e.shared m).contents = []) ∧
      ∀ i a b value, e.CallOf queueInterface i a b .dequeue (some value) →
        ∃ m, a ≤ m ∧ m < b ∧ effect m = some (i, .dequeue, some value) ∧ ∃ x < m, ∃ j,
          LinksAt e x j value := by
  have hlin := queue_linearizationPoints.linearizes e
  have hlinks : ∀ m i value,
    (∃ r, LinearizationPoints.effect e queueInterface bound m = some (i, .enqueue value, r)) ↔
      LinksAt e m i value := by
    intro m i value
    constructor
    · intro h
      obtain ⟨r, heff⟩ := h
      exact linksAt_of_takesEffect (queue_linearizationPoints.effect_eq_some_iff.1 heff)
    · intro h
      exact ⟨some value, queue_linearizationPoints.effect_eq_some_iff.2 h.takesEffect⟩
  refine ⟨_, hlin, hlinks, hlin.fifo, fun i a b hc => ?_, fun i a b value hc => ?_⟩
  · obtain ⟨m, ham, hmb, heff⟩ := hlin.call i a b .dequeue none hc
    refine ⟨m, ham, hmb, ?_⟩
    have hstep := hlin.legal m i .dequeue none heff
    generalize (e.shared m).contents = contents at hstep ⊢
    generalize (e.shared (m + 1)).contents = contents' at hstep
    cases hstep
    rfl
  · obtain ⟨m, ham, hmb, heff⟩ := hlin.call i a b .dequeue (some value) hc
    refine ⟨m, ham, hmb, heff, ?_⟩
    have hmem : value ∈ (e.shared m).contents := by
      have hstep := hlin.legal m i .dequeue (some value) heff
      generalize (e.shared m).contents = contents at hstep ⊢
      generalize (e.shared (m + 1)).contents = contents' at hstep
      cases hstep
      exact mem_cons_self
    have hin := mem_append_right
      (dequeued (LinearizationPoints.effect e queueInterface bound) m) hmem
    rw [← hlin.fifo m] at hin
    obtain ⟨x, hx, j, r, heff'⟩ := mem_enqueued hin
    exact ⟨x, hx, j, (hlinks x j value).1 ⟨r, heff'⟩⟩

end Sbcl.Concurrency
