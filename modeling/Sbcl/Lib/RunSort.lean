import Mathlib.Data.List.SplitBy

/-!
# Runs sorted in place

* `Sorts key l l'` : `l'` is `l` sorted by key, where elements of one key keep their order
  (`Sorts.unique`);
* `Sorts.insert` : one element more, put before those of greater keys;
* `runs key l` : the elements of key zero by themselves, the others in maximal runs;
* `SortsRuns key l l'` : every run is sorted in its place.
-/

namespace RunSort

open List

variable {α : Type*} {key : α → ℕ} {l l' m m' xs ys : List α} {c : α}

structure Sorts (key : α → ℕ) (l l' : List α) : Prop where
  sorted : l'.Pairwise fun a b => key a ≤ key b
  stable : ∀ k, l'.filter (fun a => key a = k) = l.filter (fun a => key a = k)

theorem sorts_nil (key : α → ℕ) : Sorts key [] [] := ⟨.nil, fun _ => rfl⟩

theorem eq_of_filter_eq (hl : l.Pairwise fun a b => key a ≤ key b)
    (hm : m.Pairwise fun a b => key a ≤ key b)
    (h : ∀ k, l.filter (fun a => key a = k) = m.filter (fun a => key a = k)) : l = m := by
  have mem_iff : ∀ a, a ∈ l ↔ a ∈ m := fun a => by
    have hmem : a ∈ l.filter (fun x => key x = key a) ↔
        a ∈ m.filter (fun x => key x = key a) := by rw [h]
    simpa using hmem
  induction l generalizing m with
  | nil =>
    refine (eq_nil_iff_forall_not_mem.2 fun a ha => ?_).symm
    exact not_mem_nil ((mem_iff a).2 ha)
  | cons a l ih =>
    cases m with
    | nil => exact absurd ((mem_iff a).1 mem_cons_self) not_mem_nil
    | cons b m =>
      rw [pairwise_cons] at hl hm
      have hab : key a ≤ key b := by
        rcases mem_cons.1 ((mem_iff b).2 mem_cons_self) with rfl | hb
        · exact le_rfl
        · exact hl.1 b hb
      have hba : key b ≤ key a := by
        rcases mem_cons.1 ((mem_iff a).1 mem_cons_self) with rfl | ha
        · exact le_rfl
        · exact hm.1 a ha
      have hkey : key b = key a := le_antisymm hba hab
      have hhead := h (key a)
      rw [filter_cons_of_pos (by simp), filter_cons_of_pos (by simp [hkey]),
        List.cons.injEq] at hhead
      obtain ⟨rfl, -⟩ := hhead
      have htail : ∀ k, l.filter (fun x => key x = k) = m.filter (fun x => key x = k) := fun k => by
        have hk := h k
        rw [filter_cons, filter_cons] at hk
        split at hk
        · exact List.cons.inj hk |>.2
        · exact hk
      rw [ih hl.2 hm.2 htail fun x => by
        have hmem : x ∈ l.filter (fun y => key y = key x) ↔
            x ∈ m.filter (fun y => key y = key x) := by rw [htail]
        simpa using hmem]

theorem Sorts.unique (h : Sorts key l xs) (h' : Sorts key l ys) : xs = ys :=
  eq_of_filter_eq h.sorted h'.sorted fun k => (h.stable k).trans (h'.stable k).symm

theorem Sorts.insert (h : Sorts key l (xs ++ ys)) (hxs : ∀ x ∈ xs, key x ≤ key c)
    (hys : ∀ y ∈ ys, key c < key y) : Sorts key (l ++ [c]) (xs ++ c :: ys) := by
  have hsorted := pairwise_append.1 h.sorted
  constructor
  · refine pairwise_append.2 ⟨hsorted.1,
      pairwise_cons.2 ⟨fun y hy => (hys y hy).le, hsorted.2.1⟩, ?_⟩
    intro x hx y hy
    rcases mem_cons.1 hy with rfl | hy
    · exact hxs x hx
    · exact hsorted.2.2 x hx y hy
  · intro k
    have hk := h.stable k
    rw [filter_append] at hk
    rw [filter_append, filter_append, filter_cons, ← hk]
    by_cases hc : key c = k
    · have hnone : ys.filter (fun a => key a = k) = [] := by
        rw [filter_eq_nil_iff]
        intro y hy
        have := hys y hy
        rw [decide_eq_true_eq]
        omega
      simp [hc, hnone]
    · simp [hc]

theorem Sorts.mem_iff (h : Sorts key l m) (a : α) : a ∈ m ↔ a ∈ l := by
  have hmem : a ∈ m.filter (fun x => key x = key a) ↔
      a ∈ l.filter (fun x => key x = key a) := by rw [h.stable]
  simpa using hmem

/-- The elements of key zero one by one, and the maximal runs of the others. -/
def runs (key : α → ℕ) (l : List α) : List (List α) := l.splitBy fun a b => key a ≠ 0 && key b ≠ 0

def SortsRuns (key : α → ℕ) (l l' : List α) : Prop :=
  ∃ rs, List.Forall₂ (Sorts key) (runs key l) rs ∧ l' = rs.flatten

theorem SortsRuns.append (h : SortsRuns key l l') (h' : SortsRuns key m m')
    (hsplit : ∀ x ∈ l.getLast?, ∀ y ∈ m.head?, key x = 0 ∨ key y = 0) :
    SortsRuns key (l ++ m) (l' ++ m') := by
  obtain ⟨rs, hrs, rfl⟩ := h
  obtain ⟨rs', hrs', rfl⟩ := h'
  refine ⟨rs ++ rs', ?_, by rw [flatten_append]⟩
  unfold runs at *
  rw [splitBy_append fun x hx y hy => by rcases hsplit x hx y hy with h | h <;> simp [h]]
  exact rel_append hrs hrs'

theorem sortsRuns_nil (key : α → ℕ) : SortsRuns key [] [] := ⟨[], by simp [runs], rfl⟩

theorem sortsRuns_singleton (key : α → ℕ) (c : α) : SortsRuns key [c] [c] := by
  refine ⟨[[c]], ?_, rfl⟩
  have hruns : runs key [c] = [[c]] := splitBy_of_isChain (cons_ne_nil c []) (.singleton c)
  rw [hruns]
  exact .cons ⟨pairwise_singleton .., fun _ => rfl⟩ .nil

theorem Sorts.runs (h : Sorts key l m) (hl : ∀ a ∈ l, key a ≠ 0) : SortsRuns key l m := by
  by_cases hnil : l = []
  · subst hnil
    rw [h.unique (sorts_nil key)]
    exact sortsRuns_nil key
  have hruns : RunSort.runs key l = [l] := by
    refine splitBy_of_isChain hnil
      (List.Pairwise.isChain (pairwise_of_forall_mem_list fun a ha b hb => ?_))
    simp [hl a ha, hl b hb]
  exact ⟨[m], by rw [hruns]; exact .cons h .nil, by simp⟩

end RunSort
