import Sbcl.Lib.BinaryHeap
import Sbcl.Timers.Heap
import Mathlib.Algebra.Order.Group.Multiset

/-!
# The timer queue keeps its items, and its order but for some removals

* `Heap.Ordered`, `PriorityQueue.Sound` : no key is below that of its parent; the maximum has a
  least key;
* `heapify_spec` : `heapify` restores the order below an index and exchanges items only;
* `heapInsert_spec`, `heapExtract_spec` : the items afterwards; `heapExtract` puts the last item in
  the freed slot;
* `heapExtract_ordered_iff` : that keeps the order when the last item is not below the parent of the
  slot, and only then;
* `run_sound_iff` : every state of a run is sound if and only if each of its removals keeps the
  order.
-/

namespace Sbcl.Timers

open Function BinaryHeap List

variable {α κ : Type*} [LinearOrder κ]

/-- The items. -/
def Heap.items (heap : Heap α) : Multiset α := entries heap.ref heap.fillPointer

/-- No key is below that of its parent. -/
def Heap.Ordered (key : α → κ) (heap : Heap α) : Prop := IsHeap (key ∘ heap.ref) heap.fillPointer

theorem Heap.rotatef_ref (heap : Heap α) (i j : ℕ) :
    (heap.rotatef i j).ref = heap.ref ∘ Equiv.swap i j := by
  rcases eq_or_ne i j with rfl | hne
  · simp [Heap.rotatef]
  · rw [Equiv.comp_swap_eq_update]
    exact update_comm hne _ _ _

/-! ## `heapify` -/

variable (key : α → κ)

theorem largest_spec (heap : Heap α) (start : ℕ) :
    key (heap.ref (largest key leTest heap start)) ≤ key (heap.ref start) ∧
      (∀ j, 0 < j → j < heap.fillPointer → heapParent j = start →
        key (heap.ref (largest key leTest heap start)) ≤ key (heap.ref j)) ∧
      (largest key leTest heap start ≠ start →
        0 < largest key leTest heap start ∧
        heapParent (largest key leTest heap start) = start) := by
  have hchild : ∀ j, 0 < j → heapParent j = start → j = heapLeft start ∨ j = heapRight start := by
    intro j hj hp
    unfold heapParent at hp
    unfold heapLeft heapRight
    omega
  have hl : 0 < heapLeft start ∧ heapParent (heapLeft start) = start := by
    unfold heapParent heapLeft
    omega
  have hr : 0 < heapRight start ∧ heapParent (heapRight start) = start := by
    unfold heapParent heapRight
    omega
  simp only [largest, leTest, decide_eq_true_eq, not_le]
  refine ⟨?_, ?_, ?_⟩
  · split_ifs with h1 h2 h2
    · exact h2.2.le.trans h1.2.le
    · exact h1.2.le
    · exact h2.2.le
    · exact le_rfl
  · intro j hj hjn hp
    rcases hchild j hj hp with rfl | rfl
    · split_ifs with h1 h2 h2
      · exact h2.2.le
      · exact le_rfl
      · exact h2.2.le.trans (not_lt.1 fun hlt => h1 ⟨hjn, hlt⟩)
      · exact not_lt.1 fun hlt => h1 ⟨hjn, hlt⟩
    · split_ifs with h1 h2 h2
      · exact le_rfl
      · exact not_lt.1 fun hlt => h2 ⟨hjn, hlt⟩
      · exact le_rfl
      · exact not_lt.1 fun hlt => h2 ⟨hjn, hlt⟩
  · split_ifs
    · exact fun _ => hr
    · exact fun _ => hl
    · exact fun _ => hr
    · exact fun hne => absurd rfl hne

theorem heapify_frame (heap : Heap α) (start : ℕ) :
    (heapify key leTest heap start).fillPointer = heap.fillPointer ∧
      (heapify key leTest heap start).items = heap.items ∧
      (∀ j < start, (heapify key leTest heap start).ref j = heap.ref j) ∧
      key ((heapify key leTest heap start).ref start) ≤ key (heap.ref start) := by
  fun_induction heapify key leTest heap start with
  | case1 heap start hne ih =>
    obtain ⟨hfill, hitems, hbefore, -⟩ := ih
    obtain ⟨hlt, hsize⟩ := largest_mem hne
    have hswap := heap.rotatef_ref (largest key leTest heap start) start
    refine ⟨hfill, hitems.trans ?_, ?_, ?_⟩
    · unfold Heap.items
      rw [hswap]
      exact entries_swap hsize (hlt.trans hsize)
    · intro j hj
      rw [hbefore j (hj.trans hlt), hswap, comp_apply,
        Equiv.swap_apply_of_ne_of_ne (hj.trans hlt).ne hj.ne]
    · rw [hbefore start hlt, hswap, comp_apply, Equiv.swap_apply_right]
      exact (largest_spec key heap start).1
  | case2 heap start => exact ⟨rfl, rfl, fun _ _ => rfl, le_rfl⟩

variable {key} in
theorem heapify_ordered (heap : Heap α) (start : ℕ)
    (h : HeapBelow (key ∘ heap.ref) heap.fillPointer start) :
    (heapify key leTest heap start).Ordered key := by
  fun_induction heapify key leTest heap start with
  | case1 heap start hne ih =>
    obtain ⟨hle, hleast, hchild⟩ := largest_spec key heap start
    obtain ⟨hpos, hparent⟩ := hchild hne
    apply ih
    rw [Heap.rotatef_ref, ← comp_assoc]
    exact h.exchange hpos (largest_mem hne).2 hparent hle hleast
  | case2 heap start heq =>
    have hleast := (largest_spec key heap start).2.1
    rw [not_not.1 heq] at hleast
    exact h.isHeap hleast

/-! ## `heap-insert` -/

theorem heapInsertLoop_spec (heap : Heap α) (newItem : α) (i : ℕ) (hi : i < heap.fillPointer) :
    (heapInsertLoop key leTest heap newItem i).1.fillPointer = heap.fillPointer ∧
      (heapInsertLoop key leTest heap newItem i).1.items = (heap.setf i newItem).items ∧
      (HeapAbove (key ∘ (heap.setf i newItem).ref) heap.fillPointer i →
        (heapInsertLoop key leTest heap newItem i).1.Ordered key) := by
  fun_induction heapInsertLoop key leTest heap newItem i with
  | case1 heap i hmove ih =>
    simp only [leTest, decide_eq_true_eq, not_le] at hmove
    have hlt : heapParent i < i := parent_lt hmove.1
    obtain ⟨hfill, hitems, hordered⟩ := ih (hlt.trans hi)
    -- the parent moved down and the new item in its slot: an exchange
    have hswap : ((heap.setf i (heap.ref (heapParent i))).setf (heapParent i) newItem).ref =
        (heap.setf i newItem).ref ∘ Equiv.swap i (heapParent i) := by
      funext j
      simp only [Heap.setf_ref, Equiv.comp_swap_eq_update, update_apply]
      grind
    refine ⟨hfill, hitems.trans ?_, fun h => hordered ?_⟩
    · unfold Heap.items
      rw [hswap]
      exact entries_swap hi (hlt.trans hi)
    rw [hswap, ← comp_assoc]
    refine h.exchange hmove.1 hi ?_
    change key (update heap.ref i newItem i) ≤ key (update heap.ref i newItem (heapParent i))
    rw [update_self, update_of_ne hlt.ne]
    exact hmove.2.le
  | case2 heap i hstay =>
    simp only [leTest, decide_eq_true_eq, not_le, not_and, not_lt] at hstay
    refine ⟨rfl, rfl, fun h => h.isHeap fun hpos _ => ?_⟩
    change key (update heap.ref i newItem (heapParent i)) ≤ key (update heap.ref i newItem i)
    have hlt : heapParent i < i := parent_lt hpos
    rw [update_self, update_of_ne hlt.ne]
    exact hstay hpos

theorem heapInsert_items (heap : Heap α) (newItem : α) :
    (heapInsert key leTest heap newItem).1.items = newItem ::ₘ heap.items := by
  refine (heapInsertLoop_spec key heap.pushExtend newItem heap.fillPointer
    (Nat.lt_succ_self _)).2.1.trans ?_
  change entries (update heap.ref heap.fillPointer newItem) (heap.fillPointer + 1) = _
  rw [entries_succ, update_self]
  exact congrArg _ (entries_congr fun i hi => update_of_ne hi.ne _ _)

variable {key} in
theorem heapInsert_ordered {heap : Heap α} (h : heap.Ordered key) (newItem : α) :
    (heapInsert key leTest heap newItem).1.Ordered key := by
  refine (heapInsertLoop_spec key heap.pushExtend newItem heap.fillPointer
    (Nat.lt_succ_self _)).2.2 ?_
  have hother : ∀ j < heap.fillPointer, (key ∘ update heap.ref heap.fillPointer newItem) j =
      key (heap.ref j) :=
    fun j hj => congrArg key (update_of_ne hj.ne _ _)
  constructor
  · intro j hj hjn hne
    have hlt : j < heap.fillPointer := Nat.lt_of_le_of_ne (Nat.lt_succ_iff.1 hjn) hne
    change (key ∘ update heap.ref heap.fillPointer newItem) _ ≤
      (key ∘ update heap.ref heap.fillPointer newItem) _
    rw [hother j hlt, hother _ ((parent_lt hj).trans hlt)]
    exact h j hj hlt
  · -- the new slot has no children
    intro _ j hj hjn hp
    exact absurd (hp ▸ parent_lt hj) (Nat.not_lt.2 (Nat.lt_succ_iff.1 hjn))

/-! ## `heap-extract` -/

theorem heapMaximum_eq (heap : Heap α) (h : 0 < heap.fillPointer) :
    heapMaximum heap = some (heap.ref 0) :=
  if_neg h.ne'

/-- The vector of `heap-extract` before `heapify`: the last item in the slot `i`, and one slot less.
-/
def Heap.fill (heap : Heap α) (i : ℕ) : Heap α :=
  (heap.setf i (heap.ref (heap.fillPointer - 1))).decfFillPointer

theorem heapExtract_eq (heap : Heap α) (i : ℕ) (hi : i < heap.fillPointer) :
    heapExtract key leTest heap i = .ok (heap.ref i, heapify key leTest (heap.fill i) i) :=
  if_neg (not_not.2 hi)

theorem fill_items (heap : Heap α) (i : ℕ) (hi : i < heap.fillPointer) :
    heap.ref i ::ₘ (heap.fill i).items = heap.items := by
  obtain ⟨ref, size⟩ := heap
  obtain ⟨last, rfl⟩ := Nat.exists_eq_succ_of_ne_zero (Nat.ne_of_gt (Nat.zero_lt_of_lt hi))
  change ref i ::ₘ entries (update ref i (ref last)) last = entries ref (last + 1)
  have h := entries_update (f := ref) hi (ref last)
  rw [entries_succ] at h
  rcases eq_or_ne i last with rfl | hne
  · rw [entries_succ, entries_congr fun j hj => update_of_ne (Nat.ne_of_lt hj) _ _]
  · rw [update_of_ne hne.symm, Multiset.cons_swap] at h
    exact (Multiset.cons_inj_right _).1 h

theorem heapExtract_items (heap : Heap α) (i : ℕ) (hi : i < heap.fillPointer) :
    heap.ref i ::ₘ (heapify key leTest (heap.fill i) i).items = heap.items := by
  rw [(heapify_frame key (heap.fill i) i).2.1, fill_items heap i hi]

variable {key} in
/-- The order after `heap-extract`, which restores it below the slot `i` only. -/
theorem heapExtract_ordered_iff {heap : Heap α} (h : heap.Ordered key) (i : ℕ)
    (hi : i < heap.fillPointer) : (heapify key leTest (heap.fill i) i).Ordered key ↔
      i = 0 ∨ i = heap.fillPointer - 1 ∨
        key (heap.ref (heapParent i)) ≤ key (heap.ref (heap.fillPointer - 1)) := by
  set last := heap.fillPointer - 1 with hlast
  have hfill : (heap.fill i).fillPointer = last := rfl
  have hat : (heap.fill i).ref i = heap.ref last := update_self ..
  have hother : ∀ j, j ≠ i → (heap.fill i).ref j = heap.ref j := fun j hj => update_of_ne hj _ _
  obtain ⟨hsize, -, hbefore, hle⟩ := heapify_frame key (heap.fill i) i
  constructor
  · intro hordered
    by_contra! hne
    have hpos : 0 < i := Nat.pos_of_ne_zero hne.1
    have hlt : heapParent i < i := parent_lt hpos
    have hedge := hordered i hpos (by rw [hsize, hfill]; omega)
    change key ((heapify key leTest (heap.fill i) i).ref (heapParent i)) ≤ _ at hedge
    rw [hbefore _ hlt, hother _ hlt.ne] at hedge
    rw [hat] at hle
    exact absurd (hedge.trans hle) (not_le.2 hne.2.2)
  · intro hcondition
    refine heapify_ordered (heap.fill i) i ⟨?_, ?_⟩
    · intro j hj hjn hp
      rw [hfill] at hjn
      change key ((heap.fill i).ref (parent j)) ≤ key ((heap.fill i).ref j)
      rw [hother _ hp]
      by_cases hji : j = i
      · subst hji
        rw [hat]
        rcases hcondition with h0 | hl | hkey
        · omega
        · omega
        · exact hkey
      · rw [hother j hji]
        exact h j hj (by omega)
    · intro hpos j hj hjn hp
      rw [hfill] at hjn
      change key ((heap.fill i).ref (parent i)) ≤ key ((heap.fill i).ref j)
      have hlt := parent_lt hpos
      have hltj := parent_lt hj
      rw [hother _ hlt.ne, hother j (by omega)]
      exact (h i hpos hi).trans (hp ▸ h j hj (by omega))

/-! ## The queue -/

theorem position_some [DecidableEq α] {item : α} {contents : Heap α} {i : ℕ}
    (h : position item contents = some i) : i < contents.fillPointer ∧ contents.ref i = item := by
  exact ⟨mem_range.1 (mem_of_find?_eq_some h), by simpa using find?_some h⟩

namespace PriorityQueue

def items (queue : PriorityQueue α κ) : Multiset α := queue.contents.items

/-- The order of the heap, and an item with a least key as the maximum. -/
structure Sound (queue : PriorityQueue α κ) : Prop where
  ordered : ∀ i, 0 < i → i < queue.contents.fillPointer →
    queue.keyfun (queue.contents.ref (heapParent i)) ≤ queue.keyfun (queue.contents.ref i)
  maximum : match priorityQueueMaximum queue with
    | none => queue.items = 0
    | some item => item ∈ queue.items ∧ ∀ other ∈ queue.items,
      queue.keyfun item ≤ queue.keyfun other

theorem sound_iff {queue : PriorityQueue α κ} : queue.Sound ↔
    queue.contents.Ordered queue.keyfun := by
  constructor
  · exact Sound.ordered
  intro h
  refine ⟨h, ?_⟩
  rcases Nat.eq_zero_or_pos queue.contents.fillPointer with hzero | hpos
  · have hitems : queue.items = 0 := by
      unfold items Heap.items
      rw [hzero, entries_zero]
    simpa only [priorityQueueMaximum, hzero, if_true] using hitems
  · simp only [priorityQueueMaximum, hpos.ne', if_false, heapMaximum_eq _ hpos]
    refine ⟨mem_entries.2 ⟨0, hpos, rfl⟩, fun other hmem => ?_⟩
    obtain ⟨i, hi, rfl⟩ := mem_entries.1 hmem
    exact IsHeap.root_le h hi

variable [DecidableEq α]

/-- A call that keeps the order: a removal takes the first or the last item, or one whose parent is
not above the last. -/
def KeepsOrder (queue : PriorityQueue α κ) : Operation α → Prop
  | .insert _ => True
  | .extractMaximum => True
  | .remove item =>
    ∀ i, position item queue.contents = some i → i = 0 ∨ i = queue.contents.fillPointer - 1 ∨
      queue.keyfun (queue.contents.ref (heapParent i)) ≤
        queue.keyfun (queue.contents.ref (queue.contents.fillPointer - 1))

/-- Each call of a sequence keeps the order. -/
def AllKeepOrder (queue : PriorityQueue α κ) : List (Operation α) → Prop
  | [] => True
  | operation :: operations =>
    queue.KeepsOrder operation ∧
      ∀ next item, queue.perform operation = .ok (next, item) → next.AllKeepOrder operations

/-- The item that a call puts in. -/
def insertedBy : Operation α → Multiset α
  | .insert newItem => {newItem}
  | .extractMaximum => 0
  | .remove _ => 0

/-- The items that the calls put in. -/
def inserted (operations : List (Operation α)) : Multiset α := (operations.map insertedBy).sum

theorem perform_spec (queue : PriorityQueue α κ) (operation : Operation α) :
    ∃ next item, queue.perform operation = .ok (next, item) ∧
      insertedBy operation + queue.items = next.items + ↑item.toList ∧
      (queue.Sound → (next.Sound ↔ queue.KeepsOrder operation)) := by
  cases operation with
  | insert newItem =>
    refine ⟨_, none, rfl, ?_, fun h => ?_⟩
    · exact (heapInsert_items queue.keyfun queue.contents newItem).symm.trans
        (Multiset.add_zero _).symm
    · exact iff_of_true (sound_iff.2 (heapInsert_ordered (sound_iff.1 h) newItem)) trivial
  | extractMaximum =>
    rcases Nat.eq_zero_or_pos queue.contents.fillPointer with hzero | hpos
    · refine ⟨queue, none, ?_, ?_, fun h => iff_of_true h trivial⟩
      · simp only [perform, priorityQueueExtractMaximum, hzero, if_true]
        rfl
      · exact (Multiset.zero_add _).trans (Multiset.add_zero _).symm
    have hextract := heapExtract_eq queue.keyfun queue.contents 0 hpos
    refine ⟨{ queue with contents := heapify queue.keyfun leTest (queue.contents.fill 0) 0 },
      some (queue.contents.ref 0), ?_, ?_, fun h => ?_⟩
    · simp only [perform, priorityQueueExtractMaximum, hpos.ne', if_false,
        heapExtractMaximum, hextract]
      rfl
    · refine (Multiset.zero_add _).trans ((heapExtract_items queue.keyfun _ 0 hpos).symm.trans ?_)
      exact (Multiset.add_comm _ _).trans (Multiset.singleton_add _ _) |>.symm
    · exact iff_of_true
        (sound_iff.2 ((heapExtract_ordered_iff (sound_iff.1 h) 0 hpos).2 (.inl rfl))) trivial
  | remove item =>
    rcases hposition : position item queue.contents with _ | i
    · refine ⟨queue, none, ?_, ?_, fun h => iff_of_true h fun i hi => ?_⟩
      · simp only [perform, priorityQueueRemove, hposition]
        rfl
      · exact (Multiset.zero_add _).trans (Multiset.add_zero _).symm
      · exact absurd (hposition.symm.trans hi) (by simp)
    · obtain ⟨hi, rfl⟩ := position_some hposition
      have hextract := heapExtract_eq queue.keyfun queue.contents i hi
      refine ⟨{ queue with contents := heapify queue.keyfun leTest (queue.contents.fill i) i },
        some (queue.contents.ref i), ?_, ?_, fun h => ?_⟩
      · simp only [perform, priorityQueueRemove, hposition, hextract]
        rfl
      · refine (Multiset.zero_add _).trans ((heapExtract_items queue.keyfun _ i hi).symm.trans ?_)
        exact (Multiset.add_comm _ _).trans (Multiset.singleton_add _ _) |>.symm
      · rw [sound_iff]
        refine (heapExtract_ordered_iff (sound_iff.1 h) i hi).trans ?_
        simp only [KeepsOrder, hposition, Option.some.injEq, forall_eq']

theorem run_cons {queue next : PriorityQueue α κ} {operation : Operation α} {item : Option α}
    (h : queue.perform operation = .ok (next, item)) (operations : List (Operation α)) :
    queue.run (operation :: operations) =
      (next.run operations).map fun (after, taken) => (after, item.toList ++ taken) := by
  simp only [run, h]
  cases next.run operations <;> rfl

theorem run_items (queue : PriorityQueue α κ) (operations : List (Operation α)) :
    ∃ after taken, queue.run operations = .ok (after, taken) ∧
      inserted operations + queue.items = after.items + ↑taken := by
  induction operations generalizing queue with
  | nil => exact ⟨queue, [], rfl, (Multiset.zero_add _).trans (Multiset.add_zero _).symm⟩
  | cons operation operations ih =>
    obtain ⟨next, item, hperform, hitems, -⟩ := queue.perform_spec operation
    obtain ⟨after, taken, hafter, hcount⟩ := ih next
    refine ⟨after, item.toList ++ taken, ?_, ?_⟩
    · rw [run_cons hperform, hafter]
      rfl
    calc inserted (operation :: operations) + queue.items
        = inserted operations + (insertedBy operation + queue.items) := by
          rw [inserted, map_cons, sum_cons, add_comm (insertedBy operation), add_assoc, inserted]
      _ = inserted operations + next.items + ↑item.toList := by rw [hitems, add_assoc]
      _ = after.items + ↑(item.toList ++ taken) := by
          rw [hcount, ← Multiset.coe_add, add_assoc, add_comm (taken : Multiset α)]

theorem run_sound {queue : PriorityQueue α κ} (h : queue.Sound) (operations : List (Operation α)) :
    (∀ prior, prior <+: operations → ∀ after taken,
      queue.run prior = .ok (after, taken) → after.Sound) ↔ queue.AllKeepOrder operations := by
  induction operations generalizing queue with
  | nil =>
    refine iff_of_true (fun prior hprior after taken hrun => ?_) trivial
    rw [prefix_nil.1 hprior] at hrun
    obtain ⟨rfl, -⟩ := Prod.mk.inj (Except.ok.inj hrun)
    exact h
  | cons operation operations ih =>
    obtain ⟨next, item, hperform, -, hsound⟩ := queue.perform_spec operation
    have hnext : queue.AllKeepOrder (operation :: operations) ↔
        queue.KeepsOrder operation ∧ next.AllKeepOrder operations := by
      simp only [AllKeepOrder, hperform, Except.ok.injEq, Prod.mk.injEq, and_imp, forall_eq',
        forall_apply_eq_imp_iff]
    rw [hnext]
    constructor
    · intro hall
      have hrun : ∀ prior, prior <+: operations → ∀ after taken,
          next.run prior = .ok (after, taken) → after.Sound := by
        intro prior hprior after taken hafter
        refine hall (operation :: prior) ((prefix_cons_inj operation).2 hprior) after
          (item.toList ++ taken) ?_
        rw [run_cons hperform, hafter]
        rfl
      -- the state after the first call is sound, so the call keeps the order
      have hnextSound : next.Sound := hrun [] nil_prefix next [] rfl
      exact ⟨(hsound h).1 hnextSound, (ih hnextSound).1 hrun⟩
    · rintro ⟨hkeeps, hrest⟩ prior hprior after taken hafter
      rcases prefix_cons_iff.1 hprior with rfl | ⟨rest, rfl, hprefix⟩
      · obtain ⟨rfl, -⟩ := Prod.mk.inj (Except.ok.inj hafter)
        exact h
      obtain ⟨last, items, hlast, -⟩ := next.run_items rest
      rw [run_cons hperform, hlast] at hafter
      obtain ⟨rfl, -⟩ := Prod.mk.inj (Except.ok.inj hafter)
      exact (ih ((hsound h).2 hkeeps)).2 hrest rest hprefix last items hlast

/-- Every state of a run from the empty queue keeps its items, is ordered and has a least maximum,
if and only if each removal of the run keeps the order. -/
theorem run_sound_iff (keyfun : α → κ) (filler : α) (operations : List (Operation α)) :
    (∀ prior, prior <+: operations → ∃ after taken, (make keyfun filler).run prior =
      .ok (after, taken) ∧
      inserted prior = after.items + ↑taken ∧ after.Sound) ↔
      (make keyfun filler).AllKeepOrder operations := by
  have hempty : (make keyfun filler).Sound :=
    sound_iff.2 fun i _ hi => absurd hi (Nat.not_lt_zero i)
  rw [← run_sound hempty operations]
  constructor
  · intro hall prior hprior after taken hrun
    obtain ⟨last, items, hlast, -, hsound⟩ := hall prior hprior
    obtain ⟨rfl, -⟩ := Prod.mk.inj (Except.ok.inj (hrun.symm.trans hlast))
    exact hsound
  · intro hall prior hprior
    obtain ⟨after, taken, hrun, hcount⟩ := (make keyfun filler).run_items prior
    exact ⟨after, taken, hrun, (Multiset.add_zero _).symm.trans hcount,
      hall prior hprior after taken hrun⟩

/-- Of the items 6, 1, 2, 4, 7, 5 and 3, with 6 removed and then twice the maximum taken out, the
maximum is 4 and 3 is still present. -/
theorem run_maximum_not_least :
    ((make id 0).run ([6, 1, 2, 4, 7, 5, 3].map .insert ++ [.remove 6, .extractMaximum,
      .extractMaximum])).toOption.map
        (fun (after, taken) => (priorityQueueMaximum after, decide (3 ∈ after.items), taken)) =
      some (some 4, true, [6, 1, 2]) := by
  decide +kernel

end PriorityQueue

end Sbcl.Timers
