import Mathlib.Order.Basic

/-!
# The heap and the priority queue of timers

* `heapParent`, `heapLeft`, `heapRight` : the tree on the indices of the vector;
* `heapify`, `heapInsert`, `heapMaximum`, `heapExtract` : the heap, over a key and a test;
* `PriorityQueue` : a vector with its key function; the queue calls the heap with the test `<=`;
* `Operation`, `PriorityQueue.perform`, `PriorityQueue.run` : sequences of calls, with the items
  they take out.

A vector has a slot for each index, and of the slots at and beyond the fill pointer none is read:
the `nil` that `vector-push-extend` stores and the zero that `heap-extract` leaves are not written.
-/

namespace Sbcl.Timers

open Function

/-! ## The heap -/

/-- `heap-parent`; of the root, which has none, its value is not used. -/
def heapParent (i : ℕ) : ℕ := (i - 1) / 2

def heapLeft (i : ℕ) : ℕ := 1 + i * 2

def heapRight (i : ℕ) : ℕ := 2 + i * 2

/-- An adjustable vector with a fill pointer. -/
structure Heap (α : Type*) where
  ref : ℕ → α
  fillPointer : ℕ

namespace Heap

variable {α : Type*}

/-- `(setf (aref heap i) a)`. -/
def setf (heap : Heap α) (i : ℕ) (a : α) : Heap α := { heap with ref := update heap.ref i a }

/-- `(rotatef (aref heap i) (aref heap j))`. -/
def rotatef (heap : Heap α) (i j : ℕ) : Heap α := (heap.setf i (heap.ref j)).setf j (heap.ref i)

/-- `vector-push-extend` of an item that is stored afterwards. -/
def pushExtend (heap : Heap α) : Heap α := { heap with fillPointer := heap.fillPointer + 1 }

/-- `(decf (fill-pointer heap))`. -/
def decfFillPointer (heap : Heap α) : Heap α := { heap with fillPointer := heap.fillPointer - 1 }

@[simp] theorem setf_ref (heap : Heap α) (i : ℕ) (a : α) :
    (heap.setf i a).ref = update heap.ref i a := rfl

@[simp] theorem rotatef_fillPointer (heap : Heap α) (i j : ℕ) :
    (heap.rotatef i j).fillPointer = heap.fillPointer := rfl

end Heap

section Operations

variable {α κ : Type*} (key : α → κ) (test : κ → κ → Bool)

/-- The index that `heapify` finds: `start`, or the one of its children to exchange it with. -/
def largest (heap : Heap α) (start : ℕ) : ℕ :=
  let l := heapLeft start
  let r := heapRight start
  let size := heap.fillPointer
  let larger := if l < size ∧ ¬ test (key (heap.ref start)) (key (heap.ref l)) then l else start
  if r < size ∧ ¬ test (key (heap.ref larger)) (key (heap.ref r)) then r else larger

variable {key test} in
theorem largest_mem {heap : Heap α} {start : ℕ} (h : largest key test heap start ≠ start) :
    start < largest key test heap start ∧ largest key test heap start < heap.fillPointer := by
  unfold largest heapLeft heapRight at *
  dsimp only at *
  split_ifs at h ⊢ <;> omega

def heapify (heap : Heap α) (start : ℕ) : Heap α :=
  if largest key test heap start ≠ start then
    heapify (heap.rotatef (largest key test heap start) start) (largest key test heap start)
  else
    heap
termination_by heap.fillPointer - start
decreasing_by
  have := largest_mem ‹largest key test heap start ≠ start›
  simp only [Heap.rotatef_fillPointer]
  omega

/-- The loop of `heap-insert`: parents move down until the slot for the new item is found. -/
def heapInsertLoop (heap : Heap α) (newItem : α) (i : ℕ) : Heap α × ℕ :=
  if 0 < i ∧ ¬ test (key (heap.ref (heapParent i))) (key newItem) then
    heapInsertLoop (heap.setf i (heap.ref (heapParent i))) newItem (heapParent i)
  else
    (heap.setf i newItem, i)
termination_by i
decreasing_by
  unfold heapParent
  omega

/-- `heap-insert`, which returns the index of the new item. -/
def heapInsert (heap : Heap α) (newItem : α) : Heap α × ℕ :=
  heapInsertLoop key test heap.pushExtend newItem heap.fillPointer

def heapMaximum (heap : Heap α) : Option α :=
  if heap.fillPointer = 0 then none else some (heap.ref 0)

/-- `heap-extract`; without an item at `i` it signals "Heap underflow". -/
def heapExtract (heap : Heap α) (i : ℕ) : Except String (α × Heap α) :=
  if ¬ heap.fillPointer > i then
    .error "Heap underflow"
  else
    let last := heap.fillPointer - 1
    .ok (heap.ref i, heapify key test (heap.setf i (heap.ref last)).decfFillPointer i)

def heapExtractMaximum (heap : Heap α) : Except String (α × Heap α) := heapExtract key test heap 0

end Operations

structure PriorityQueue (α κ : Type*) where
  contents : Heap α
  keyfun : α → κ

section Queue

variable {α κ : Type*} [LE κ] [DecidableLE κ]

/-- `#'<=`. -/
def leTest (a b : κ) : Bool := decide (a ≤ b)

def priorityQueueMaximum (priorityQueue : PriorityQueue α κ) : Option α :=
  if priorityQueue.contents.fillPointer = 0 then none else heapMaximum priorityQueue.contents

/-- `priority-queue-extract-maximum`: the item, or `nil` of an empty queue. -/
def priorityQueueExtractMaximum (priorityQueue : PriorityQueue α κ) :
    Except String (Option α × PriorityQueue α κ) :=
  if priorityQueue.contents.fillPointer = 0 then
    .ok (none, priorityQueue)
  else
    (heapExtractMaximum priorityQueue.keyfun leTest priorityQueue.contents).map
      fun (item, contents) =>
      (some item, { priorityQueue with contents := contents })

def priorityQueueInsert (priorityQueue : PriorityQueue α κ) (newItem : α) : PriorityQueue α κ × ℕ :=
  let (contents, i) := heapInsert priorityQueue.keyfun leTest priorityQueue.contents newItem
  ({ priorityQueue with contents := contents }, i)

/-- `(position item contents :test #'eq)`. -/
def position [DecidableEq α] (item : α) (contents : Heap α) : Option ℕ :=
  (List.range contents.fillPointer).find? fun i => contents.ref i = item

/-- `priority-queue-remove`: the index the item was at, or `nil`. -/
def priorityQueueRemove [DecidableEq α] (priorityQueue : PriorityQueue α κ) (item : α) :
    Except String (Option ℕ × PriorityQueue α κ) :=
  match position item priorityQueue.contents with
  | none => .ok (none, priorityQueue)
  | some i =>
    (heapExtract priorityQueue.keyfun leTest priorityQueue.contents i).map fun (_, contents) =>
      (some i, { priorityQueue with contents := contents })

end Queue

/-- A call on the queue. -/
inductive Operation (α : Type*)
  | insert (newItem : α)
  | extractMaximum
  | remove (item : α)

namespace PriorityQueue

variable {α κ : Type*} [LE κ] [DecidableLE κ] [DecidableEq α]

/-- `make-priority-queue`; `filler` is what the slots of the new vector hold. -/
def make (keyfun : α → κ) (filler : α) : PriorityQueue α κ :=
  { contents := { ref := fun _ => filler, fillPointer := 0 }, keyfun := keyfun }

/-- One call: the queue afterwards, and the item the call has taken out. -/
def perform (queue : PriorityQueue α κ) : Operation α → Except String (PriorityQueue α κ × Option α)
  | .insert newItem => .ok ((priorityQueueInsert queue newItem).1, none)
  | .extractMaximum => (priorityQueueExtractMaximum queue).map fun (item, queue) => (queue, item)
  | .remove item => (priorityQueueRemove queue item).map fun (i, queue) =>
    (queue, i.map fun _ => item)

/-- A sequence of calls: the queue afterwards, and the items that the calls have taken out. -/
def run (queue : PriorityQueue α κ) : List (Operation α) →
    Except String (PriorityQueue α κ × List α)
  | [] => .ok (queue, [])
  | operation :: operations =>
    match queue.perform operation with
    | .error message => .error message
    | .ok (queue, item) =>
      match queue.run operations with
      | .error message => .error message
      | .ok (queue, items) => .ok (queue, item.toList ++ items)

end PriorityQueue

end Sbcl.Timers
