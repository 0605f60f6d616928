import Mathlib.Data.List.Sort

/-!
# Sorted sequences with repetitions, split at a root

`List.orderedInsert` and `List.erase` on the in-order sequence `l ++ b :: s` of a search tree with
root `b`, for a relation `r` that orders the sequence: an insertion or removal happens on one side
of the root.
-/

namespace SortedSeq

open List

variable {α : Type} (r : α → α → Prop) {a b : α} {l s : List α}

theorem pairwise_node : (l ++ b :: s).Pairwise r ↔
    l.Pairwise r ∧ s.Pairwise r ∧ (∀ x ∈ l, r x b) ∧ (∀ y ∈ s, r b y) ∧ ∀ x ∈ l,
      ∀ y ∈ s, r x y := by
  simp only [pairwise_append, pairwise_cons, mem_cons, forall_eq_or_imp]
  constructor
  · rintro ⟨hl, ⟨hbs, hs⟩, h⟩
    exact ⟨hl, hs, fun x hx => (h x hx).1, hbs, fun x hx => (h x hx).2⟩
  · rintro ⟨hl, hs, hlb, hbs, hls⟩
    exact ⟨hl, ⟨hbs, hs⟩, fun x hx => ⟨hlb x hx, hls x hx⟩⟩

section Insert
variable [DecidableRel r]

theorem orderedInsert_node_le (h : r a b) :
    (l ++ b :: s).orderedInsert r a = l.orderedInsert r a ++ b :: s := by
  induction l with
  | nil => simp [h]
  | cons x l ih =>
    by_cases hx : r a x
    · simp [hx]
    · simp [hx, ih]

theorem orderedInsert_node_gt [IsTrans α r] (hl : ∀ x ∈ l, r x b) (h : ¬ r a b) :
    (l ++ b :: s).orderedInsert r a = l ++ b :: s.orderedInsert r a := by
  induction l with
  | nil => simp [h]
  | cons x l ih =>
    have hx : ¬ r a x := fun hax => h (trans_of r hax (hl x (by simp)))
    simp [hx, ih fun y hy => hl y (by simp [hy])]

end Insert

section Erase
variable [DecidableEq α]

theorem erase_node_left (h : a ∉ b :: s) : (l ++ b :: s).erase a = l.erase a ++ b :: s := by
  by_cases hl : a ∈ l
  · exact erase_append_left _ hl
  · rw [erase_of_not_mem hl, erase_of_not_mem (by simp [hl, h])]

theorem erase_node_right (hl : a ∉ l) (h : a ≠ b) :
    (l ++ b :: s).erase a = l ++ b :: s.erase a := by
  rw [erase_append_right _ hl, erase_cons_tail (by simpa using h.symm)]

theorem erase_node [Std.Antisymm r] (hs : (l ++ b :: s).Pairwise r) :
    (l ++ b :: s).erase b = l ++ s := by
  refine List.Perm.eq_of_pairwise' (hs.sublist erase_sublist) ?_ ?_
  · exact hs.sublist (List.Sublist.append_left (sublist_cons_self b s) l)
  · exact (perm_middle.erase b).trans (by simp)

end Erase

end SortedSeq
