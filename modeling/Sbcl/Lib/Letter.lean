import Mathlib.Computability.Language

/-!
# Languages by their first letters

* `letter p` : the words of one letter of which `p` holds;
* what a product with `letter p`, or with a repetition of it, says of the empty word and of the
  first letter of a word;
* `mem_many_iff`, `many_subset` : the words of a repetition are those of which `p` holds at every
  letter.
-/

open Computability

namespace Language

variable {α : Type*} {p q : α → Prop} {L : Language α} {a : α} {s : List α}

/-- The words of one letter. -/
def letter (p : α → Prop) : Language α := {s | ∃ a, p a ∧ s = [a]}

theorem cons_mem_mul : a :: s ∈ letter p * L ↔ p a ∧ s ∈ L := by
  rw [mem_mul]
  constructor
  · intro h
    obtain ⟨_, ⟨b, hb, rfl⟩, t, ht, heq⟩ := h
    obtain ⟨rfl, rfl⟩ := List.cons_eq_cons.1 heq
    exact ⟨hb, ht⟩
  · intro h
    exact ⟨[a], ⟨a, h.1, rfl⟩, s, h.2, rfl⟩

theorem nil_notMem_mul : [] ∉ letter p * L := by
  rw [mem_mul]
  intro h
  obtain ⟨_, ⟨b, _, rfl⟩, t, _, heq⟩ := h
  exact List.cons_ne_nil _ _ heq

theorem cons_mem_letter : a :: s ∈ letter p ↔ p a ∧ s = [] := by
  have h := cons_mem_mul (p := p) (L := 1) (a := a) (s := s)
  rwa [mul_one, mem_one] at h

theorem nil_notMem_letter : [] ∉ letter p := by
  have h := nil_notMem_mul (p := p) (L := 1)
  rwa [mul_one] at h

theorem many_mul_eq (p : α → Prop) (L : Language α) :
    (letter p)∗ * L = L + letter p * ((letter p)∗ * L) := by
  conv_lhs => rw [← one_add_self_mul_kstar_eq_kstar, add_mul, one_mul, mul_assoc]

theorem cons_mem_many_mul : a :: s ∈ (letter p)∗ * L ↔ p a ∧ s ∈ (letter p)∗ * L ∨ a :: s ∈ L := by
  conv_lhs => rw [many_mul_eq, mem_add, cons_mem_mul, or_comm]

theorem nil_mem_many_mul : [] ∈ (letter p)∗ * L ↔ [] ∈ L := by
  conv_lhs => rw [many_mul_eq, mem_add]
  exact or_iff_left nil_notMem_mul

theorem cons_mem_many : a :: s ∈ (letter p)∗ ↔ p a ∧ s ∈ (letter p)∗ := by
  have h := cons_mem_many_mul (p := p) (L := 1) (a := a) (s := s)
  rwa [mul_one, mem_one, or_iff_left (List.cons_ne_nil _ _)] at h

theorem mem_many_iff : s ∈ (letter p)∗ ↔ ∀ a ∈ s, p a := by
  induction s with
  | nil => exact iff_of_true (nil_mem_kstar _) (fun a ha => absurd ha List.not_mem_nil)
  | cons a s ih => rw [cons_mem_many, ih, List.forall_mem_cons]

theorem many_subset (h : ∀ a ∈ s, p a → q a) (hs : s ∈ (letter p)∗) : s ∈ (letter q)∗ :=
  mem_many_iff.2 fun a ha => h a ha (mem_many_iff.1 hs a ha)

end Language
