import Mathlib.Data.List.Nodup

/-!
# Chains of indices

Singly linked lists: `next` holds the successor of every index, and 0 ends a chain.

* `Path next i l e` : from `i` through the indices `l` to `e`;
* `Path.congr`, `Path.update` : writes elsewhere;
* `Path.link` : a chain behind another;
* `Path.nodup`, `Path.last` : a chain that ends goes through each of its indices once.
-/

namespace Chains

open List

variable {next next' : Nat → Nat} {i x s e e' : Nat} {l l' l₁ l₂ : List Nat}

inductive Path (next : Nat → Nat) : Nat → List Nat → Nat → Prop
  | nil (e : Nat) : Path next e [] e
  | cons {i e : Nat} {l : List Nat} : Path next (next i) l e → Path next i (i :: l) e

namespace Path

theorem congr (h : Path next s l e) (hn : ∀ i ∈ l, next' i = next i) : Path next' s l e := by
  induction h with
  | nil e => exact .nil e
  | @cons i e l _ ih =>
    refine .cons ?_
    rw [hn i (mem_cons_self ..)]
    exact ih fun j hj => hn j (mem_cons_of_mem i hj)

theorem update (h : Path next s l e) (hi : i ∉ l) : Path (Function.update next i x) s l e := by
  refine h.congr fun j hj => Function.update_of_ne ?_ _ _
  rintro rfl
  exact hi hj

theorem nil_iff : Path next s [] e ↔ s = e :=
  ⟨fun h => by cases h; rfl, fun h => h ▸ .nil s⟩

theorem cons_iff : Path next s (i :: l) e ↔ s = i ∧ Path next (next i) l e :=
  ⟨fun h => by cases h with | cons h => exact ⟨rfl, h⟩, fun ⟨hs, h⟩ => by subst hs; exact .cons h⟩

theorem append_iff : Path next s (l₁ ++ l₂) e ↔ ∃ x, Path next s l₁ x ∧ Path next x l₂ e := by
  induction l₁ generalizing s with
  | nil =>
    rw [nil_append]
    refine ⟨fun h => ⟨s, .nil s, h⟩, fun ⟨x, hx, h⟩ => ?_⟩
    rw [nil_iff.mp hx]
    exact h
  | cons j l₁ ih =>
    rw [cons_append, cons_iff, ih]
    refine ⟨fun ⟨hs, x, hx, h⟩ => ⟨x, cons_iff.mpr ⟨hs, hx⟩, h⟩, fun ⟨x, hx, h⟩ => ?_⟩
    obtain ⟨hs, hx⟩ := cons_iff.mp hx
    exact ⟨hs, x, hx, h⟩

theorem unique (h : Path next s l 0) (h0 : 0 ∉ l) (h' : Path next s l' 0)
    (h0' : 0 ∉ l') : l = l' := by
  induction l generalizing s l' with
  | nil =>
    obtain rfl := nil_iff.mp h
    cases l' with
    | nil => rfl
    | cons j l' =>
      obtain ⟨rfl, _⟩ := cons_iff.mp h'
      exact absurd (mem_cons_self ..) h0'
  | cons i l ih =>
    obtain ⟨rfl, h⟩ := cons_iff.mp h
    cases l' with
    | nil =>
      rw [nil_iff.mp h'] at h0
      exact absurd (mem_cons_self ..) h0
    | cons j l' =>
      obtain ⟨rfl, h'⟩ := cons_iff.mp h'
      rw [ih h (fun hm => h0 (mem_cons_of_mem _ hm)) h' fun hm => h0' (mem_cons_of_mem _ hm)]

theorem ne_nil_of_ne (h : Path next s l e) (hs : s ≠ e) : l ≠ [] := by
  rintro rfl
  exact hs (nil_iff.mp h)

theorem next_last (h : Path next s l e) (hx : l.getLast? = some x) : next x = e := by
  obtain ⟨l', rfl⟩ := getLast?_eq_some_iff.mp hx
  obtain ⟨y, -, h⟩ := append_iff.mp h
  exact nil_iff.mp (cons_iff.mp h).2

theorem last (h : Path next s l e) (he : e ∉ l) (hx : x ∈ l) (hnext : next x = e) :
    l.getLast? = some x := by
  obtain ⟨l₁, l₂, rfl⟩ := append_of_mem hx
  obtain ⟨y, -, h⟩ := append_iff.mp h
  obtain ⟨-, h⟩ := cons_iff.mp h
  cases l₂ with
  | nil => exact getLast?_concat
  | cons z l₂ =>
    obtain ⟨hz, -⟩ := cons_iff.mp h
    exact absurd (by simp [← hz, hnext]) he

theorem link (h : Path next s l e) (hx : l.getLast? = some x) (hl : l.Nodup)
    (h' : Path next i l' e') (hx' : x ∉ l') : Path (Function.update next x i) s (l ++ l') e' := by
  obtain ⟨l₁, rfl⟩ := getLast?_eq_some_iff.mp hx
  obtain ⟨y, h₁, h₂⟩ := append_iff.mp h
  obtain ⟨rfl, -⟩ := cons_iff.mp h₂
  have hy : y ∉ l₁ := fun hm => disjoint_of_nodup_append hl hm mem_cons_self
  rw [append_assoc, singleton_append]
  refine append_iff.mpr ⟨y, h₁.update hy, cons_iff.mpr ⟨rfl, ?_⟩⟩
  rw [Function.update_self]
  exact h'.update hx'

theorem nodup (h : Path next s l 0) (h0 : 0 ∉ l) : l.Nodup := by
  induction l generalizing s with
  | nil => exact nodup_nil
  | cons i l ih =>
    obtain ⟨rfl, h'⟩ := cons_iff.mp h
    have h0' : 0 ∉ l := fun hm => h0 (mem_cons_of_mem _ hm)
    refine nodup_cons.mpr ⟨fun hm => ?_, ih h' h0'⟩
    -- From the second place on the chain would be the same as from the first.
    obtain ⟨l₁, l₂, rfl⟩ := append_of_mem hm
    obtain ⟨y, -, h₂⟩ := append_iff.mp h'
    obtain ⟨rfl, -⟩ := cons_iff.mp h₂
    have heq := unique h h0 h₂ fun hm => h0' (mem_append_right _ hm)
    have := congrArg List.length heq
    simp only [length_cons, length_append] at this
    omega

end Path

end Chains
