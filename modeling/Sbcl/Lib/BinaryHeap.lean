import Mathlib.Data.Multiset.Range

/-!
# Binary heaps in a vector

* `parent`, `left`, `right` : the tree on the indices of a vector;
* `IsHeap` : no key is below that of its parent; `IsHeap.root_le` : the root has a least key;
* `HeapBelow`, `HeapAbove` : a heap but for the edges that leave an index, and but for the edge that
  enters it;
* `HeapBelow.exchange`, `HeapAbove.exchange` : an exchange moves the exception one level down, or
  up;
* `entries` : the entries of the vector, which an exchange keeps.
-/

namespace BinaryHeap

open Function

def parent (i : ℕ) : ℕ := (i - 1) / 2

def left (i : ℕ) : ℕ := 2 * i + 1

def right (i : ℕ) : ℕ := 2 * i + 2

theorem parent_lt {i : ℕ} (h : 0 < i) : parent i < i := by
  unfold parent
  omega

/-! ## Heaps -/

section Order

variable {K : Type*} [LinearOrder K]

/-- The first `n` keys are a heap. -/
def IsHeap (k : ℕ → K) (n : ℕ) : Prop := ∀ j, 0 < j → j < n → k (parent j) ≤ k j

/-- A heap but for the edges from `i` to its children, which are not below the parent of `i`. -/
structure HeapBelow (k : ℕ → K) (n i : ℕ) : Prop where
  edges : ∀ j, 0 < j → j < n → parent j ≠ i → k (parent j) ≤ k j
  grandchildren : 0 < i → ∀ j, 0 < j → j < n → parent j = i → k (parent i) ≤ k j

/-- A heap but for the edge from `i` to its parent, which is not above the children of `i`. -/
structure HeapAbove (k : ℕ → K) (n i : ℕ) : Prop where
  edges : ∀ j, 0 < j → j < n → j ≠ i → k (parent j) ≤ k j
  grandchildren : 0 < i → ∀ j, 0 < j → j < n → parent j = i → k (parent i) ≤ k j

variable {k : ℕ → K} {n i : ℕ}

theorem IsHeap.root_le (h : IsHeap k n) (hi : i < n) : k 0 ≤ k i := by
  induction i using Nat.strong_induction_on with
  | _ i ih =>
    rcases Nat.eq_zero_or_pos i with rfl | hpos
    · exact le_rfl
    · have hlt := parent_lt hpos
      exact (ih (parent i) hlt (hlt.trans hi)).trans (h i hpos hi)

theorem HeapBelow.isHeap (h : HeapBelow k n i)
    (hi : ∀ j, 0 < j → j < n → parent j = i → k i ≤ k j) : IsHeap k n := by
  intro j hj hjn
  by_cases hp : parent j = i
  · rw [hp]
    exact hi j hj hjn hp
  · exact h.edges j hj hjn hp

theorem HeapAbove.isHeap (h : HeapAbove k n i) (hi : 0 < i → i < n → k (parent i) ≤ k i) :
    IsHeap k n := by
  intro j hj hjn
  by_cases hp : j = i
  · rw [hp] at hj hjn ⊢
    exact hi hj hjn
  · exact h.edges j hj hjn hp

theorem HeapBelow.exchange {c : ℕ} (h : HeapBelow k n i) (hc : 0 < c) (hcn : c < n)
    (hpc : parent c = i) (hle : k c ≤ k i)
    (hleast : ∀ j, 0 < j → j < n → parent j = i → k c ≤ k j) :
    HeapBelow (k ∘ Equiv.swap c i) n c := by
  have hic : i < c := hpc ▸ parent_lt hc
  have hother : ∀ j, j ≠ c → j ≠ i → (k ∘ Equiv.swap c i) j = k j := fun j h1 h2 =>
    congrArg k (Equiv.swap_apply_of_ne_of_ne h1 h2)
  have hatC : (k ∘ Equiv.swap c i) c = k i := congrArg k (Equiv.swap_apply_left c i)
  have hatI : (k ∘ Equiv.swap c i) i = k c := congrArg k (Equiv.swap_apply_right c i)
  constructor
  · intro j hj hjn hpj
    have hpj' := parent_lt hj
    by_cases hji : j = i
    · -- the edge that enters `i` has the child below it
      subst hji
      rw [hatI, hother _ (by omega) hpj'.ne]
      exact h.grandchildren hj c hc hcn hpc
    by_cases hpi : parent j = i
    · rw [hpi, hatI]
      by_cases hjc : j = c
      · rw [hjc, hatC]
        exact hle
      · rw [hother j hjc hji]
        exact hleast j hj hjn hpi
    · have hjc : j ≠ c := fun heq => hpi (heq ▸ hpc)
      rw [hother j hjc hji, hother _ hpj hpi]
      exact h.edges j hj hjn hpi
  · intro _ j hj hjn hpj
    have hcj : c < j := hpj ▸ parent_lt hj
    rw [hpc, hatI, hother j hcj.ne' (by omega), ← hpj]
    exact h.edges j hj hjn (by omega)

theorem HeapAbove.exchange (h : HeapAbove k n i) (hi : 0 < i) (hin : i < n)
    (hlt : k i ≤ k (parent i)) : HeapAbove (k ∘ Equiv.swap i (parent i)) n (parent i) := by
  have hpi := parent_lt hi
  have hother : ∀ j, j ≠ i → j ≠ parent i → (k ∘ Equiv.swap i (parent i)) j = k j := fun j h1 h2 =>
    congrArg k (Equiv.swap_apply_of_ne_of_ne h1 h2)
  have hatI : (k ∘ Equiv.swap i (parent i)) i = k (parent i) :=
    congrArg k (Equiv.swap_apply_left i (parent i))
  have hatP : (k ∘ Equiv.swap i (parent i)) (parent i) = k i :=
    congrArg k (Equiv.swap_apply_right i (parent i))
  -- the edge from the grandparent to the parent was in order
  have hgrand : 0 < parent i → k (parent (parent i)) ≤ k (parent i) := fun hp =>
    h.edges (parent i) hp (hpi.trans hin) hpi.ne
  constructor
  · intro j hj hjn hjp
    by_cases hji : j = i
    · rw [hji, hatI, hatP]
      exact hlt
    rw [hother j hji hjp]
    by_cases hpj : parent j = parent i
    · rw [hpj, hatP]
      exact hlt.trans (hpj ▸ h.edges j hj hjn hji)
    by_cases hpji : parent j = i
    · rw [hpji, hatI]
      exact h.grandchildren hi j hj hjn hpji
    · rw [hother _ hpji hpj]
      exact h.edges j hj hjn hji
  · intro hp j hj hjn hpj
    have hpp := parent_lt hp
    rw [hother (parent (parent i)) (by omega) hpp.ne]
    by_cases hji : j = i
    · rw [hji, hatI]
      exact hgrand hp
    · rw [hother j hji (by have := parent_lt hj; omega)]
      exact (hgrand hp).trans (hpj ▸ h.edges j hj hjn hji)

end Order

section Entries

variable {α : Type*} {f g : ℕ → α} {n : ℕ}

/-- The entries of the first `n` indices. -/
def entries (f : ℕ → α) (n : ℕ) : Multiset α := (Multiset.range n).map f

@[simp] theorem entries_zero (f : ℕ → α) : entries f 0 = 0 := rfl

theorem entries_succ (f : ℕ → α) (n : ℕ) : entries f (n + 1) = f n ::ₘ entries f n := by
  rw [entries, Multiset.range_succ, Multiset.map_cons, entries]

theorem mem_entries {a : α} : a ∈ entries f n ↔ ∃ i < n, f i = a := by
  simp only [entries, Multiset.mem_map, Multiset.mem_range]

theorem entries_congr (h : ∀ i < n, f i = g i) : entries f n = entries g n :=
  Multiset.map_congr rfl fun i hi => h i (Multiset.mem_range.1 hi)

theorem entries_update {i : ℕ} (hi : i < n) (a : α) :
    f i ::ₘ entries (update f i a) n = a ::ₘ entries f n := by
  induction n with
  | zero => exact absurd hi (Nat.not_lt_zero i)
  | succ n ih =>
    rw [entries_succ, entries_succ]
    rcases Nat.lt_succ_iff_lt_or_eq.1 hi with hlt | rfl
    · rw [update_of_ne hlt.ne', Multiset.cons_swap, ih hlt, Multiset.cons_swap]
    · rw [update_self, entries_congr fun j hj => update_of_ne hj.ne a f, Multiset.cons_swap]

theorem entries_swap {i j : ℕ} (hi : i < n) (hj : j < n) :
    entries (f ∘ Equiv.swap i j) n = entries f n := by
  rcases eq_or_ne i j with rfl | hne
  · rw [Equiv.swap_self]
    rfl
  have h : f ∘ Equiv.swap i j = update (update f i (f j)) j (f i) := by
    rw [Equiv.comp_swap_eq_update, update_comm hne]
  have hi' := entries_update (f := f) hi (f j)
  have hj' := entries_update (f := update f i (f j)) hj (f i)
  rw [update_of_ne hne.symm] at hj'
  rw [h]
  refine (Multiset.cons_inj_right (f j)).1 ?_
  rw [hj', hi']

end Entries

end BinaryHeap
