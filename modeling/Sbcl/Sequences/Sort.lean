import Mathlib.Tactic.Common

/-!
# Stable sorts (code/sort.lisp)

* `stableSortList` : the top-down merge sort that relinks the conses of a list;
* `stableSortVector` : the bottom-up merge sort between a vector and a temporary one;
* `mergeLists`, `mergeVectors` : the two merges of `merge`.

Conses are addresses, of which 0 is `nil`, and a list is the address of its first cons. The loops
over lists go on as long as the conses are linked, so that they have a bound on their steps, and
give nothing if they reach it. A vector is a function, with its length beside it.
-/

namespace Sbcl.Sort

open Function

variable {α : Type}

/-! ## Lists -/

/-- The conses. -/
structure Heap (α : Type) where
  car : ℕ → α
  cdr : ℕ → ℕ

def Heap.setCar (h : Heap α) (cons : ℕ) (x : α) : Heap α := { h with car := update h.car cons x }

def Heap.setCdr (h : Heap α) (cons list : ℕ) : Heap α := { h with cdr := update h.cdr cons list }

section List
variable (test : α → α → Bool) (key : α → α)

/-- The loop of `merge-lists*`. -/
def mergeListsLoop : ℕ → Heap α → ℕ → ℕ → α → ℕ → α → Option (Heap α)
  | 0, _, _, _, _, _, _ => none
  | bound + 1, h, tail, list1, key1, list2, key2 =>
    if test key2 key1 then
      let h := h.setCdr tail list2
      let rest := h.cdr list2
      if rest ≠ 0 then mergeListsLoop bound h list2 list1 key1 rest (key (h.car rest))
      else some (h.setCdr list2 list1)
    else
      let h := h.setCdr tail list1
      let rest := h.cdr list1
      if rest ≠ 0 then mergeListsLoop bound h list1 rest (key (h.car rest)) list2 key2
      else some (h.setCdr list1 list2)

/-- `merge-lists*`, for the merged list in the cdr of `head`. -/
def mergeListsHead (bound : ℕ) (h : Heap α) (head list1 list2 : ℕ) : Option (Heap α × ℕ) :=
  (mergeListsLoop test key bound h head list1 (key (h.car list1)) list2 (key (h.car list2))).map
    fun h => (h, h.cdr head)

def mergeLists (bound : ℕ) (h : Heap α) (head list1 list2 : ℕ) : Option (Heap α × ℕ) :=
  if list1 = 0 then some (h, list2)
  else if list2 = 0 then some (h, list1)
  else mergeListsHead test key bound (h.setCdr head 0) head list1 list2

/-- A sorted list: its first and last cons, and what was linked behind the elements that were
sorted. -/
structure Values where
  list : ℕ
  tail : ℕ
  rest : ℕ

def stableSortList2 (h : Heap α) (list : ℕ) : Heap α × Values :=
  let second := h.cdr list
  let h' :=
    if test (key (h.car second)) (key (h.car list)) then (h.setCar list (h.car second)).setCar
      second (h.car list) else h
  (h'.setCdr second 0, ⟨list, second, h'.cdr second⟩)

def stableSortList3 (h : Heap α) (list : ℕ) : Heap α × Values :=
  let second := h.cdr list
  let third := h.cdr second
  let (x, y) :=
    if test (key (h.car second)) (key (h.car list)) then (h.car second,
      h.car list) else (h.car list, h.car second)
  let z := h.car third
  let (x, y, z) := if test (key z) (key y) then if test (key z) (key x) then (z, x, y) else (x, z,
    y) else (x, y, z)
  let h' := ((h.setCar list x).setCar second y).setCar third z
  (h'.setCdr third 0, ⟨list, third, h'.cdr third⟩)

def stableSortFastMergeLimit : ℕ := 8

/-- `merge*`. -/
def mergeStar (bound : ℕ) (h : Heap α) (head size list1 tail1 list2 tail2 rest : ℕ) :
    Option (Heap α × Values) :=
  if size ≥ stableSortFastMergeLimit ∧ ¬test (key (h.car list2)) (key (h.car tail1)) then
    some (h.setCdr tail1 list2, ⟨list1, tail2, rest⟩)
  else if size ≥ stableSortFastMergeLimit ∧ test (key (h.car tail2)) (key (h.car list1)) then
    some (h.setCdr tail2 list1, ⟨list2, tail1, rest⟩)
  else
    (mergeListsHead test key bound h head list1 list2).map fun (h, list) =>
      (h, ⟨list, if h.cdr tail1 = 0 then tail1 else tail2, rest⟩)

/-- The function `recur` of `stable-sort-list`. -/
def recur (bound head : ℕ) (h : Heap α) (list size : ℕ) : Option (Heap α × Values) :=
  if size > 3 then do
    let half := size / 2
    let (h, first) ← recur bound head h list half
    let (h, second) ← recur bound head h first.rest (size - half)
    mergeStar test key bound h head size first.list first.tail second.list second.tail second.rest
  else if size = 3 then some (stableSortList3 test key h list)
  else if size = 2 then some (stableSortList2 test key h list)
  else some (h.setCdr list 0, ⟨list, list, h.cdr list⟩)
termination_by size

/-- `length`. -/
def listLength (h : Heap α) : ℕ → ℕ → Option ℕ
  | 0, list => if list = 0 then some 0 else none
  | bound + 1, list => if list = 0 then some 0 else (listLength h bound (h.cdr list)).map (· + 1)

/-- `stable-sort-list`, with a cons for `head`. -/
def stableSortList (bound : ℕ) (h : Heap α) (head list : ℕ) : Option (Heap α × ℕ) :=
  if list = 0 then some (h, 0)
  else do
    let h := h.setCdr head list
    let size ← listLength h bound list
    let (h, sorted) ← recur test key bound head h list size
    some (h, sorted.list)

end List

/-! ## Vectors -/

def funcall2UsingKey (pred : α → α → Bool) (key : Option (α → α)) (one two : α) : Bool :=
  match key with
  | some key => pred (key one) (key two)
  | none => pred one two

/-- A loop that copies `count` elements. -/
def copyLoop (source : ℕ → α) : ℕ → (ℕ → α) → ℕ → ℕ → ℕ → α
  | 0, target, _, _ => target
  | count + 1, target, i, targetI => copyLoop source count (update target targetI (source i))
    (i + 1) (targetI + 1)

section Vector
variable (pred : α → α → Bool) (key : Option (α → α))

/-- The loop of `stable-sort-merge-vectors*` and of `merge-vectors`, with so many elements left from
`i` on in the one run and from `j` on in the other. -/
def mergeLoop (source1 source2 : ℕ → α) : ℕ → ℕ → (ℕ → α) → ℕ → ℕ → ℕ → ℕ → α
  | 0, left2, target, _, j, targetI => copyLoop source2 left2 target j targetI
  | left1, 0, target, i, _, targetI => copyLoop source1 left1 target i targetI
  | left1 + 1, left2 + 1, target, i, j, targetI =>
    if funcall2UsingKey pred key (source2 j) (source1 i) then
      mergeLoop source1 source2 (left1 + 1) left2 (update target targetI (source2 j)) i
        (j + 1) (targetI + 1)
    else mergeLoop source1 source2 left1 (left2 + 1) (update target targetI (source1 i))
      (i + 1) j (targetI + 1)

def stableSortMergeVectors (source target : ℕ → α) (start1 end1 end2 : ℕ) : ℕ → α :=
  mergeLoop pred key source source (end1 - start1) (end2 - end1) target start1 end1 start1

/-- The inner loop of `vector-merge-sort`, for the target and for `start-1`. -/
def mergePass (vectorLen n : ℕ) (hn : 0 < n) (source target : ℕ → α) (unsorted : ℕ) : (ℕ → α) × ℕ :=
  let start1 := unsorted
  let end1 := start1 + n
  if end1 < vectorLen then
    let end2 := if end1 + n > vectorLen then vectorLen else end1 + n
    let target := stableSortMergeVectors pred key source target start1 end1 end2
    if end2 = vectorLen then (target, start1) else mergePass vectorLen n hn source target end2
  else (copyLoop source (vectorLen - start1) target start1 start1, start1)
termination_by vectorLen - unsorted
decreasing_by
  have _hend1 : unsorted + n < vectorLen := ‹_›
  show vectorLen - (if unsorted + n + n > vectorLen then vectorLen else unsorted + n + n) <
    vectorLen - unsorted
  split <;> omega

/-- A run as long as the vector is the only one. -/
theorem mergePass_start {vectorLen n : ℕ} (hn : 0 < n) (source target : ℕ → α)
    (h : (mergePass pred key vectorLen n hn source target 0).2 ≠ 0) : n < vectorLen := by
  by_contra hle
  apply h
  rw [mergePass]
  rw [Nat.zero_add, if_neg hle]

/-- The outer loop of `vector-merge-sort`, with the source and the target of the direction. -/
def vectorMergeLoop (vectorLen n : ℕ) (hn : 0 < n) (direction : Bool)
    (vector temp : ℕ → α) : ℕ → α :=
  let source := if direction then vector else temp
  let target := if direction then temp else vector
  let pass := mergePass pred key vectorLen n hn source target 0
  let vector := if direction then vector else pass.1
  let temp := if direction then pass.1 else temp
  if _hstart : pass.2 = 0 then
    if direction then copyLoop temp vectorLen vector 0 0 else vector
  else vectorMergeLoop vectorLen (2 * n) (Nat.mul_pos Nat.two_pos hn) (!direction) vector temp
termination_by vectorLen - n
decreasing_by
  have := mergePass_start pred key hn _ _ _hstart
  omega

/-- `stable-sort-vector`, which is `stable-sort-simple-vector` as well, with the initial elements of
the temporary vector. -/
def stableSortVector (vectorLen : ℕ) (vector temp : ℕ → α) : ℕ → α :=
  if vectorLen ≤ 1 then vector else vectorMergeLoop pred key vectorLen 1 Nat.one_pos
    true vector temp

def mergeVectors (vector1 : ℕ → α) (length1 : ℕ) (vector2 : ℕ → α) (length2 : ℕ)
    (result : ℕ → α) : ℕ → α :=
  mergeLoop pred key vector1 vector2 length1 length2 result 0 0 0

end Vector

end Sbcl.Sort
