import Sbcl.Lockless.Lflist

/-!
# What one step of the list macros does

* `SearchInv`, `DeleteInv` : what a thread knows at each program counter, stable under the steps of
  others;
* `searchStep_spec`, `insertStep_spec`, `deleteStep_spec`, `findStep_spec` : the change of the heap
  and the knowledge after it.

`W` holds of the heaps the thread has seen in its call, and `anchored` tells that the search starts
at a node which is never marked.
-/

namespace Sbcl.Lockless

open MarkedList Bool

variable {P : Type} {root start listHead left n : Nat} {h h' : Heap P} {p q : P}
    {W W' : Heap P → Prop}
    {anchored : Prop} {r right : Ref}
variable {new old : Next} {pc : SearchPc}

def InHeap (h : Heap P) (r : Ref) : Prop := ∀ n, r = .node n → n < h.top

def Unmarked (n : Nat) (h : Heap P) : Prop := n < h.top ∧ (h.next n).marked = false

/-- `left` is unmarked and RIGHT follows it. -/
def Adjacent (left : Nat) (right : Ref) (h : Heap P) : Prop :=
  left < h.top ∧ h.next left = ⟨right, false⟩ ∧ InHeap h right

/-- A heap with `p` has been seen. -/
def Saw (W : Heap P → Prop) (h : Heap P) (p : Heap P → Prop) : Prop := ∃ h₀, W h₀ ∧ Le h₀ h ∧ p h₀

theorem InHeap.le (hle : Le h h') (hr : InHeap h r) : InHeap h' r :=
  fun n hn => Nat.lt_of_lt_of_le (hr n hn) hle.top

theorem Saw.le {p : Heap P → Prop} (hle : Le h h') (hs : Saw W h p) : Saw W h' p := by
  obtain ⟨h₀, hW, h0, hp⟩ := hs
  exact ⟨h₀, hW, h0.trans hle, hp⟩

theorem Saw.mono {p : Heap P → Prop} (hW : ∀ h, W h → W' h) (hs : Saw W h p) : Saw W' h p := by
  obtain ⟨h₀, h0, hrest⟩ := hs
  exact ⟨h₀, hW h₀ h0, hrest⟩

theorem Saw.now {p : Heap P → Prop} (hW : W h) (hp : p h) : Saw W h p := ⟨h, hW, Le.refl h, hp⟩

theorem cas_eq_true (hn : (cas h n old new).2 = true) :
    h.next n = old ∧ (cas h n old new).1 = h.setNext n new := by
  unfold cas at hn ⊢
  by_cases heq : h.next n = old
  · rw [if_pos heq]
    exact ⟨heq, rfl⟩
  · rw [if_neg heq] at hn
    simp at hn

theorem cas_eq_false (hn : (cas h n old new).2 = false) : (cas h n old new).1 = h := by
  unfold cas at hn ⊢
  by_cases heq : h.next n = old
  · rw [if_pos heq] at hn
    simp at hn
  · rw [if_neg heq]

variable [LinearOrder P] {fixed : P → Prop} {t : Target P}

/-- The comparisons of `t` are those with the position `q`. -/
structure Target.At (t : Target P) (q : P) : Prop where
  lt_iff : ∀ p, t.lt p = true ↔ p < q
  eq_iff : ∀ p, t.eq p = true ↔ p = q

/-- A node to the left of the key. -/
def Left (t : Target P) (h : Heap P) (left : Nat) : Prop := left < h.top ∧ t.lt (h.pos left) = true

/-- The tail, or a node that is not to the left of the key. -/
def Right (t : Target P) (h : Heap P) (right : Ref) : Prop :=
  ∀ n, right = .node n → n < h.top ∧ t.lt (h.pos n) = false

/-- Two adjacent nodes with the key strictly between them. -/
def NotFound (t : Target P) (h : Heap P) : Prop :=
  ∃ left right, Adjacent left right h ∧ Left t h left ∧ Right t h right ∧ ∀ n, right = .node n →
    t.eq (h.pos n) = false

def SearchInv (t : Target P) (anchored : Prop) (W : Heap P → Prop) (h : Heap P) : SearchPc → Prop
  | .searchAgain => True
  | .endTest left leftNodeNext this =>
    Left t h left ∧ InHeap h this ∧ MarkedPath h leftNodeNext this ∧
      (anchored → Saw W h (Adjacent left leftNodeNext))
  | .checkRight left right => Left t h left ∧ Right t h right ∧
    (anchored → Saw W h (Adjacent left right))
  | .remove left leftNodeNext right => Left t h left ∧ Right t h right ∧
    MarkedPath h leftNodeNext right
  | .found right left =>
    Left t h left ∧ Right t h right ∧ (anchored → Saw W h (Adjacent left right)) ∧
      ∀ n, right = .node n → Saw W h (Unmarked n)

def DeleteInv (t : Target P) (anchored : Prop) (W : Heap P → Prop) (h : Heap P) : DeletePc → Prop
  | .search pc => SearchInv t anchored W h pc
  | .mark this predecessor _ => (this < h.top ∧ t.eq (h.pos this) = true) ∧ Left t h predecessor
  | .swing this predecessor succ => Left t h predecessor ∧ this < h.top ∧ h.next this = ⟨succ, true⟩
  | .finish pc => SearchInv t anchored W h pc

/-! ### Stability -/

section Stable
variable (hle : Le h h')
include hle

theorem Left.le (hl : Left t h left) : Left t h' left := by
  refine ⟨Nat.lt_of_lt_of_le hl.1 hle.top, ?_⟩
  rw [hle.pos left hl.1]
  exact hl.2

theorem Right.le (hr : Right t h right) : Right t h' right := by
  intro n hn
  obtain ⟨hlt, hpos⟩ := hr n hn
  refine ⟨Nat.lt_of_lt_of_le hlt hle.top, ?_⟩
  rw [hle.pos n hlt]
  exact hpos

theorem SearchInv.le (hi : SearchInv t anchored W h pc) : SearchInv t anchored W h' pc := by
  cases pc with
  | searchAgain => trivial
  | endTest left leftNodeNext this =>
    obtain ⟨hl, hin, hp, hs⟩ := hi
    exact ⟨hl.le hle, hin.le hle, hp.le hle, fun ha => (hs ha).le hle⟩
  | checkRight left right =>
    obtain ⟨hl, hr, hs⟩ := hi
    exact ⟨hl.le hle, hr.le hle, fun ha => (hs ha).le hle⟩
  | remove left leftNodeNext right =>
    obtain ⟨hl, hr, hp⟩ := hi
    exact ⟨hl.le hle, hr.le hle, hp.le hle⟩
  | found right left =>
    obtain ⟨hl, hr, hs, hu⟩ := hi
    exact ⟨hl.le hle, hr.le hle, fun ha => (hs ha).le hle, fun n hn => (hu n hn).le hle⟩

theorem DeleteInv.le {pc : DeletePc} (hi : DeleteInv t anchored W h pc) :
    DeleteInv t anchored W h' pc := by
  cases pc with
  | search pc => exact SearchInv.le hle hi
  | mark this predecessor succ =>
    obtain ⟨⟨hlt, heq⟩, hl⟩ := hi
    refine ⟨⟨Nat.lt_of_lt_of_le hlt hle.top, ?_⟩, hl.le hle⟩
    rw [hle.pos this hlt]
    exact heq
  | swing this predecessor succ =>
    obtain ⟨hl, hlt, hnext⟩ := hi
    refine ⟨hl.le hle, Nat.lt_of_lt_of_le hlt hle.top, ?_⟩
    rw [hle.frozen this hlt (by rw [hnext])]
    exact hnext
  | finish pc => exact SearchInv.le hle hi

end Stable

section Mono
variable (hW : ∀ h, W h → W' h)
include hW

theorem SearchInv.mono (hi : SearchInv t anchored W h pc) : SearchInv t anchored W' h pc := by
  cases pc with
  | searchAgain => trivial
  | endTest left leftNodeNext this => exact ⟨hi.1, hi.2.1, hi.2.2.1,
    fun ha => (hi.2.2.2 ha).mono hW⟩
  | checkRight left right => exact ⟨hi.1, hi.2.1, fun ha => (hi.2.2 ha).mono hW⟩
  | remove left leftNodeNext right => exact hi
  | found right left =>
    exact ⟨hi.1, hi.2.1, fun ha => (hi.2.2.1 ha).mono hW, fun n hn => (hi.2.2.2 n hn).mono hW⟩

theorem DeleteInv.mono {pc : DeletePc} (hi : DeleteInv t anchored W h pc) :
    DeleteInv t anchored W' h pc := by
  cases pc with
  | search pc => exact SearchInv.mono hW hi
  | mark this predecessor succ => exact hi
  | swing this predecessor succ => exact hi
  | finish pc => exact SearchInv.mono hW hi

end Mono

/-- RIGHT comes after the key, unless it is the node of the key. -/
theorem Target.At.lt_of_right (ht : t.At q) (hright : Right t h right)
    (hne : ∀ n, right = .node n → t.eq (h.pos n) = false) : ∀ n, right = .node n → q < h.pos n := by
  intro n hn
  have hge : ¬ h.pos n < q := by
    rw [← ht.lt_iff, (hright n hn).2]
    simp
  have hq : h.pos n ≠ q := by
    rw [ne_eq, ← ht.eq_iff, hne n hn]
    simp
  exact lt_of_le_of_ne (not_lt.mp hge) (Ne.symm hq)

theorem NotFound.absent (hwf : WF fixed root h) (ht : t.At q) (hn : NotFound t h) :
    ¬ Present h q := by
  obtain ⟨left, right, ⟨hl, hnext, _⟩, hleft, hright, hne⟩ := hn
  exact hwf.not_present_between hl hnext ((ht.lt_iff _).mp hleft.2) (ht.lt_of_right hright hne)

/-! ## The search -/

theorem out_inv (hl : Left t h left) (hr : Right t h right) (hp : MarkedPath h r right)
    (hs : anchored → Saw W h (Adjacent left r)) : SearchInv t anchored W h (.out left r right) := by
  unfold SearchPc.out
  by_cases heq : r = right
  · rw [if_pos heq]
    exact ⟨hl, hr, heq ▸ hs⟩
  · rw [if_neg heq]
    exact ⟨hl, hr, hp⟩

theorem WF.inHeap_next (hwf : WF fixed root h) (hn : n < h.top) : InHeap h (h.next n).ref :=
  fun m hm => (hwf.sorted n hn m hm).1

theorem WF.adjacent (hwf : WF fixed root h) (hn : n < h.top) (hm : (h.next n).marked = false) :
    Adjacent n (h.next n).ref h := by
  refine ⟨hn, ?_, WF.inHeap_next hwf hn⟩
  rw [← hm]

theorem searchStep_spec (hwf : WF fixed root h) (hstart : Left t h start)
    (hanch : anchored → (h.next start).marked = false) (hi : SearchInv t anchored W h pc)
    (hW : W h) (hW' : W (searchStep t start h pc).1) :
    Tidy h (searchStep t start h pc).1 ∧
      SearchInv t anchored W (searchStep t start h pc).1 (searchStep t start h pc).2 := by
  cases pc with
  | searchAgain =>
    refine ⟨.same, hstart, WF.inHeap_next hwf hstart.1, .refl _, fun ha => ?_⟩
    exact Saw.now hW (WF.adjacent hwf hstart.1 (hanch ha))
  | endTest left leftNodeNext this =>
    obtain ⟨hl, hin, hp, hs⟩ := hi
    cases this with
    | tail =>
      refine ⟨.same, out_inv hl ?_ hp hs⟩
      rintro n ⟨⟩
    | node this =>
      have hthis := hin this rfl
      unfold searchStep
      cases hm : (h.next this).marked with
      | true =>
        -- a marked node extends the path behind LEFT
        simp only [hm, if_true]
        exact ⟨.same, hl, WF.inHeap_next hwf hthis, hp.snoc hthis hm, hs⟩
      | false =>
        cases hlt : t.lt (h.pos this) with
        | true =>
          simp only [hm, hlt, if_true, false_eq_true, if_false]
          refine ⟨.same, ⟨hthis, hlt⟩, WF.inHeap_next hwf hthis, .refl _, fun _ => ?_⟩
          exact Saw.now hW (WF.adjacent hwf hthis hm)
        | false =>
          simp only [hm, hlt, false_eq_true, if_false]
          refine ⟨.same, out_inv hl ?_ hp hs⟩
          rintro n ⟨rfl⟩
          exact ⟨hthis, hlt⟩
  | checkRight left right =>
    obtain ⟨hl, hr, hs⟩ := hi
    refine ⟨.same, ?_⟩
    change SearchInv t anchored W h (if nodeMarkedp h right = true then .searchAgain
      else .found right left)
    by_cases hm : nodeMarkedp h right = true
    · rw [if_pos hm]
      trivial
    rw [if_neg hm]
    refine ⟨hl, hr, hs, fun n hn => Saw.now hW ⟨(hr n hn).1, ?_⟩⟩
    rw [hn] at hm
    exact eq_false_of_not_eq_true hm
  | remove left leftNodeNext right =>
    obtain ⟨hl, hr, hp⟩ := hi
    unfold searchStep at hW' ⊢
    cases hc : (cas h left ⟨leftNodeNext, false⟩ ⟨right, false⟩).2 with
    | true =>
      obtain ⟨hnext, hheap⟩ := cas_eq_true hc
      simp only [hc, if_true, hheap] at hW' ⊢
      have ht : Tidy h (h.setNext left ⟨right, false⟩) :=
        .unlink left leftNodeNext right hl.1 hnext hp
      refine ⟨ht, hl.le ht.le, hr.le ht.le,
        fun _ => Saw.now hW' ⟨hl.1, ?_, fun n hn => (hr n hn).1⟩⟩
      rw [Heap.setNext_next_self]
    | false =>
      simp only [hc, false_eq_true, if_false, cas_eq_false hc]
      exact ⟨.same, trivial⟩
  | found right left => exact ⟨.same, hi⟩

/-! ## The operations -/

@[simp] theorem hit_tail : hit t h .tail = none := rfl

@[simp] theorem hit_node : hit t h (.node n) = if t.eq (h.pos n) then some n else none := rfl

theorem hit_eq_some (hn : hit t h right = some n) : right = .node n ∧ t.eq (h.pos n) = true := by
  cases right with
  | tail => simp at hn
  | node m =>
    rw [hit_node] at hn
    by_cases heq : t.eq (h.pos m) = true
    · rw [if_pos heq] at hn
      obtain rfl := Option.some.inj hn
      exact ⟨rfl, heq⟩
    · simp [heq] at hn

theorem hit_eq_none (hn : hit t h right = none) : ∀ n, right = .node n →
    t.eq (h.pos n) = false := by
  rintro n rfl
  rw [hit_node] at hn
  by_cases heq : t.eq (h.pos n) = true
  · simp [heq] at hn
  · exact eq_false_of_not_eq_true heq

theorem insertStep_hit (hn : hit t h right = some n) :
    insertStep t q start h (.found right left) = (h, .returned (n, true)) := by
  simp only [insertStep, hn]

theorem insertStep_link (hn : hit t h right = none) (hnext : h.next left = ⟨right, false⟩) :
    insertStep t q start h (.found right left) = (h.link left q right,
      .returned (h.top, false)) := by
  simp only [insertStep, hn, if_pos hnext]

theorem insertStep_retry (hn : hit t h right = none) (hnext : h.next left ≠ ⟨right, false⟩) :
    insertStep t q start h (.found right left) = (h, .running .searchAgain) := by
  simp only [insertStep, hn, if_neg hnext]

theorem findStep_found : findStep t start h (.found right left) = (h, .returned (hit t h right)) :=
  rfl

theorem deleteStep_none (hn : hit t h right = none) :
    deleteStep t start listHead h (.search (.found right left)) = (h, .returned false) := by
  simp only [deleteStep, hn]

theorem deleteStep_hit (hn : hit t h right = some n) :
    deleteStep t start listHead h (.search (.found right left)) =
      (h, .running (if (h.next n).marked then .search .searchAgain else .mark n left
        (h.next n).ref)) := by
  simp only [deleteStep, hn]

theorem deleteStep_search (hpc : ∀ right left, pc ≠ .found right left) :
    deleteStep t start listHead h (.search pc) =
      ((searchStep t start h pc).1, .running (.search (searchStep t start h pc).2)) := by
  cases pc with
  | found right left => exact absurd rfl (hpc right left)
  | _ => rfl

theorem deleteStep_finish (hpc : ∀ right left, pc ≠ .found right left) :
    deleteStep t start listHead h (.finish pc) =
      ((searchStep t listHead h pc).1, .running (.finish (searchStep t listHead h pc).2)) := by
  cases pc with
  | found right left => exact absurd rfl (hpc right left)
  | _ => rfl

theorem found_none (hi : SearchInv t anchored W h (.found right left)) (hn : hit t h right = none) :
    anchored → Saw W h (NotFound t) := by
  intro ha
  obtain ⟨hl, hr, hs, _⟩ := hi
  obtain ⟨h₀, hW, hle, hadj⟩ := hs ha
  have hpos : ∀ n, right = .node n → h.pos n = h₀.pos n := fun n hn => hle.pos n (hadj.2.2 n hn)
  refine ⟨h₀, hW, hle, left, right, hadj, ⟨hadj.1, ?_⟩, fun n hn => ⟨hadj.2.2 n hn, ?_⟩,
    fun n hn' => ?_⟩
  · rw [← hle.pos left hadj.1]
    exact hl.2
  · rw [← hpos n hn]
    exact (hr n hn).2
  · rw [← hpos n hn']
    exact hit_eq_none hn n hn'

theorem found_some (hi : SearchInv t anchored W h (.found right left))
    (hn : hit t h right = some n) : n < h.top ∧ t.eq (h.pos n) = true ∧ Saw W h (Unmarked n) := by
  obtain ⟨hr, heq⟩ := hit_eq_some hn
  exact ⟨(hi.2.1 n hr).1, heq, hi.2.2.2 n hr⟩

/-- A node of position `q` is linked between two adjacent ones. -/
def Linked (q : P) (h h' : Heap P) : Prop :=
  ∃ left right, left < h.top ∧ h.next left = ⟨right, false⟩ ∧ h.pos left < q ∧
    (∀ n, right = .node n → q < h.pos n) ∧ h' = h.link left q right

/-- An unmarked node of position `q` is marked. -/
def Marks (q : P) (this : Nat) (h h' : Heap P) : Prop :=
  Unmarked this h ∧ h.pos this = q ∧ h' = h.setNext this ⟨(h.next this).ref, true⟩

def InsertPost (t : Target P) (q : P) (anchored : Prop) (W : Heap P → Prop) (h h' : Heap P) :
    Status SearchPc (Nat × Bool) → Prop
  | .running pc => Tidy h h' ∧ SearchInv t anchored W h' pc
  | .returned (n, true) => h' = h ∧ n < h.top ∧ t.eq (h.pos n) = true ∧ Saw W h (Unmarked n)
  | .returned (n, false) => n = h.top ∧ Linked q h h'

theorem insertStep_spec (hwf : WF fixed root h) (ht : t.At q) (hstart : Left t h start)
    (hanch : anchored → (h.next start).marked = false) (hi : SearchInv t anchored W h pc)
    (hW : W h) (hW' : W (insertStep t q start h pc).1) :
    InsertPost t q anchored W h (insertStep t q start h pc).1 (insertStep t q start h pc).2 := by
  cases pc with
  | found right left =>
    cases hhit : hit t h right with
    | some n =>
      rw [insertStep_hit hhit]
      exact ⟨rfl, found_some hi hhit⟩
    | none =>
      by_cases hnext : h.next left = ⟨right, false⟩
      · rw [insertStep_link hhit hnext]
        obtain ⟨hl, hr, _, _⟩ := hi
        exact ⟨rfl, left, right, hl.1, hnext, (ht.lt_iff _).mp hl.2,
          ht.lt_of_right hr (hit_eq_none hhit), rfl⟩
      · rw [insertStep_retry hhit hnext]
        exact ⟨.same, trivial⟩
  | _ => exact searchStep_spec hwf hstart hanch hi hW hW'

def FindPost (t : Target P) (anchored : Prop) (W : Heap P → Prop) (h h' : Heap P) :
    Status SearchPc (Option Nat) → Prop
  | .running pc => Tidy h h' ∧ SearchInv t anchored W h' pc
  | .returned (some n) => h' = h ∧ n < h.top ∧ t.eq (h.pos n) = true ∧ Saw W h (Unmarked n)
  | .returned none => h' = h ∧ (anchored → Saw W h (NotFound t))

theorem findStep_spec (hwf : WF fixed root h) (hstart : Left t h start)
    (hanch : anchored → (h.next start).marked = false) (hi : SearchInv t anchored W h pc)
    (hW : W h) (hW' : W (findStep t start h pc).1) :
    FindPost t anchored W h (findStep t start h pc).1 (findStep t start h pc).2 := by
  cases pc with
  | found right left =>
    rw [findStep_found]
    cases hhit : hit t h right with
    | some n => exact ⟨rfl, found_some hi hhit⟩
    | none => exact ⟨rfl, found_none hi hhit⟩
  | _ => exact searchStep_spec hwf hstart hanch hi hW hW'

/-- A thread that has marked its node. -/
def DeletePc.Marked : DeletePc → Prop
  | .search _ | .mark _ _ _ => False
  | .swing _ _ _ | .finish _ => True

def DeletePost (t : Target P) (q : P) (anchored : Prop) (W : Heap P → Prop) (h h' : Heap P)
    (pc : DeletePc) : Status DeletePc Bool → Prop
  | .running pc' =>
    DeleteInv t anchored W h' pc' ∧
      ((Tidy h h' ∧ (pc'.Marked ↔ pc.Marked)) ∨
        (¬ pc.Marked ∧ pc'.Marked ∧ ∃ this, Marks q this h h'))
  | .returned true => Tidy h h' ∧ pc.Marked
  | .returned false => h' = h ∧ ¬ pc.Marked ∧ (anchored → Saw W h (NotFound t))

theorem deleteStep_spec (hwf : WF fixed root h) (ht : t.At q) (hstart : Left t h start)
    (hanch : anchored → (h.next start).marked = false) (hlist : Left t h listHead)
    (hlanch : anchored → (h.next listHead).marked = false) {pc : DeletePc}
    (hi : DeleteInv t anchored W h pc) (hW : W h) (hW' : W (deleteStep t start listHead h pc).1) :
    DeletePost t q anchored W h (deleteStep t start listHead h pc).1 pc
      (deleteStep t start listHead h pc).2 := by
  cases pc with
  | search pc =>
    by_cases hpc : ∃ right left, pc = .found right left
    · obtain ⟨right, left, rfl⟩ := hpc
      cases hhit : hit t h right with
      | none =>
        rw [deleteStep_none hhit]
        exact ⟨rfl, fun hm => hm, found_none hi hhit⟩
      | some this =>
        obtain ⟨hthis, heq, _⟩ := found_some hi hhit
        rw [deleteStep_hit hhit]
        by_cases hm : (h.next this).marked = true
        · rw [if_pos hm]
          exact ⟨trivial, Or.inl ⟨.same, Iff.rfl⟩⟩
        · rw [if_neg hm]
          exact ⟨⟨⟨hthis, heq⟩, hi.1⟩, Or.inl ⟨.same, Iff.rfl⟩⟩
    · have hne : ∀ right left, pc ≠ .found right left :=
        fun right left heq => hpc ⟨right, left, heq⟩
      rw [deleteStep_search hne] at hW' ⊢
      obtain ⟨htidy, hs⟩ := searchStep_spec hwf hstart hanch hi hW hW'
      exact ⟨hs, Or.inl ⟨htidy, Iff.rfl⟩⟩
  | mark this predecessor succ =>
    obtain ⟨⟨hthis, heq⟩, hl⟩ := hi
    unfold deleteStep at hW' ⊢
    cases hc : (cas h this ⟨succ, false⟩ ⟨succ, true⟩).2 with
    | true =>
      obtain ⟨hnext, hheap⟩ := cas_eq_true hc
      simp only [hc, if_true, hheap] at hW' ⊢
      refine ⟨⟨hl, hthis, Heap.setNext_next_self _⟩, Or.inr ⟨fun hm => hm, trivial, this, ?_⟩⟩
      refine ⟨⟨hthis, by rw [hnext]⟩, (ht.eq_iff _).mp heq, by rw [hnext]⟩
    | false =>
      simp only [hc, false_eq_true, if_false, cas_eq_false hc]
      exact ⟨trivial, Or.inl ⟨.same, Iff.rfl⟩⟩
  | swing this predecessor succ =>
    obtain ⟨hl, hthis, hnext⟩ := hi
    have htidy : Tidy h (cas h predecessor ⟨.node this, false⟩ ⟨succ, false⟩).1 := by
      cases hc : (cas h predecessor ⟨.node this, false⟩ ⟨succ, false⟩).2 with
      | true =>
        obtain ⟨hpred, hheap⟩ := cas_eq_true hc
        rw [hheap]
        refine .unlink predecessor (.node this) succ hl.1 hpred (.step hthis (by rw [hnext]) ?_)
        rw [hnext]
        exact .refl _
      | false =>
        rw [cas_eq_false hc]
        exact .same
    unfold deleteStep
    dsimp only
    split_ifs
    · exact ⟨htidy, trivial⟩
    · exact ⟨trivial, Or.inl ⟨htidy, Iff.rfl⟩⟩
  | finish pc =>
    by_cases hpc : ∃ right left, pc = .found right left
    · obtain ⟨right, left, rfl⟩ := hpc
      exact ⟨.same, trivial⟩
    have hne : ∀ right left, pc ≠ .found right left := fun right left heq => hpc ⟨right, left, heq⟩
    rw [deleteStep_finish hne] at hW' ⊢
    obtain ⟨htidy, hs⟩ := searchStep_spec hwf hlist hlanch hi hW hW'
    exact ⟨hs, Or.inl ⟨htidy, Iff.rfl⟩⟩

/-! ## Effects on the contents -/

theorem Linked.present (hl : Linked q h h') : Present h' p ↔ Present h p ∨ p = q := by
  obtain ⟨left, right, hlt, hnext, _, _, rfl⟩ := hl
  exact present_link hlt hnext

theorem Linked.absent (hwf : WF fixed root h) (hl : Linked q h h') : ¬ Present h q := by
  obtain ⟨left, right, hlt, hnext, hlq, hqr, _⟩ := hl
  exact hwf.not_present_between hlt hnext hlq hqr

theorem Linked.node (hl : Linked q h h') : Unmarked h.top h' ∧ h'.pos h.top = q := by
  obtain ⟨left, right, hlt, hnext, _, _, rfl⟩ := hl
  refine ⟨⟨Nat.lt_succ_self _, ?_⟩, Heap.link_pos_top⟩
  rw [Heap.link_next_top hlt]

theorem Marks.present (hwf : WF fixed root h) (hm : Marks q n h h') : Present h' p ↔
    Present h p ∧ p ≠ q := by
  obtain ⟨⟨hn, hnm⟩, rfl, rfl⟩ := hm
  exact hwf.present_mark hn hnm

/-- An insert changes the contents only when it returns a new node. -/
theorem InsertPost.present {s : Status SearchPc (Nat × Bool)}
    (hp : InsertPost t q anchored W h h' s) :
    (∀ p, Present h' p ↔ Present h p) ∨ ∃ n, s = .returned (n, false) ∧ ∀ p, Present h' p ↔
      Present h p ∨ p = q := by
  cases s with
  | running pc => exact Or.inl fun p => hp.1.present
  | returned r =>
    obtain ⟨n, existed⟩ := r
    cases existed with
    | true =>
      obtain ⟨rfl, _⟩ := hp
      exact Or.inl fun p => Iff.rfl
    | false => exact Or.inr ⟨n, rfl, fun p => hp.2.present⟩

/-- A delete changes the contents only at the step that marks its node. -/
theorem DeletePost.present (hwf : WF fixed root h) {pc : DeletePc} {s : Status DeletePc Bool}
    (hp : DeletePost t q anchored W h h' pc s) :
    (∀ p, Present h' p ↔ Present h p) ∨
      ∃ pc', s = .running pc' ∧ ¬ pc.Marked ∧ pc'.Marked ∧ ∀ p, Present h' p ↔
        Present h p ∧ p ≠ q := by
  cases s with
  | running pc' =>
    obtain ⟨_, ⟨ht, _⟩ | ⟨hpc, hpc', n, hm⟩⟩ := hp
    · exact Or.inl fun p => ht.present
    · exact Or.inr ⟨pc', rfl, hpc, hpc', fun p => hm.present hwf⟩
  | returned r =>
    cases r with
    | true => exact Or.inl fun p => hp.1.present
    | false =>
      obtain ⟨rfl, _⟩ := hp
      exact Or.inl fun p => Iff.rfl

theorem FindPost.present {s : Status SearchPc (Option Nat)} (hp : FindPost t anchored W h h' s) :
    Present h' p ↔ Present h p := by
  cases s with
  | running pc => exact hp.1.present
  | returned r =>
    cases r with
    | none =>
      obtain ⟨rfl, _⟩ := hp
      exact Iff.rfl
    | some n =>
      obtain ⟨rfl, _⟩ := hp
      exact Iff.rfl

end Sbcl.Lockless
