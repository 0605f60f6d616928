import Mathlib.Data.List.Basic
import Mathlib.Tactic.Ring

/-!
# Lists in memory, and fields in words

* `Stored` : the elements of a list in consecutive cells, with the rules for appended lists, stores
  and moves;
* `field` : a number read as fields of equal width, with the rules for shifts and for a field put on
  top.
-/

namespace Memory

open Function Nat

variable {α : Type*} {v : ℕ → α} {i : ℕ} {xs ys : List α}

/-- The cells from `i` on hold the list. -/
def Stored (v : ℕ → α) (i : ℕ) (xs : List α) : Prop := ∀ m x, xs[m]? = some x → v (i + m) = x

theorem stored_nil : Stored v i [] := fun m x h => by simp at h

theorem stored_cons {x : α} : Stored v i (x :: xs) ↔ v i = x ∧ Stored v (i + 1) xs := by
  constructor
  · intro h
    refine ⟨h 0 x rfl, fun m y hm => ?_⟩
    rw [Nat.add_right_comm]
    exact h (m + 1) y hm
  rintro ⟨h0, h⟩ m y hm
  cases m with
  | zero =>
    rw [List.getElem?_cons_zero, Option.some_inj] at hm
    exact h0.trans hm
  | succ m =>
    have := h m y hm
    rwa [Nat.add_right_comm] at this

theorem stored_append : Stored v i (xs ++ ys) ↔ Stored v i xs ∧ Stored v (i + xs.length) ys := by
  induction xs generalizing i with
  | nil => simp [stored_nil]
  | cons x xs ih => rw [List.cons_append, stored_cons, stored_cons, ih, List.length_cons, and_assoc,
    Nat.add_right_comm,
      Nat.add_assoc i]

theorem Stored.congr {w : ℕ → α} (h : Stored v i xs) (hw : ∀ m < xs.length, w (i + m) = v (i + m)) :
    Stored w i xs := by
  intro m x hm
  rw [hw m (List.getElem?_eq_some_iff.1 hm).1]
  exact h m x hm

theorem Stored.move {w : ℕ → α} {j : ℕ} (h : Stored v i xs)
    (hw : ∀ m < xs.length, w (j + m) = v (i + m)) : Stored w j xs := by
  intro m x hm
  rw [hw m (List.getElem?_eq_some_iff.1 hm).1]
  exact h m x hm

theorem Stored.update {j : ℕ} (h : Stored v i xs) (x : α) (hj : j < i ∨ i + xs.length ≤ j) :
    Stored (update v j x) i xs := h.congr fun m hm => update_of_ne (by omega) x v

theorem Stored.head {x : α} (h : Stored v i (x :: xs)) : v i = x := (stored_cons.1 h).1

theorem Stored.left (h : Stored v i (xs ++ ys)) : Stored v i xs := (stored_append.1 h).1

theorem Stored.right (h : Stored v i (xs ++ ys)) : Stored v (i + xs.length) ys :=
  (stored_append.1 h).2

/-- The `t`-th field of `b` bits. -/
def field (b x t : ℕ) : ℕ := x >>> (b * t) &&& (2 ^ b - 1)

variable {b x n k t : ℕ}

theorem field_eq (b x t : ℕ) : field b x t = x / 2 ^ (b * t) % 2 ^ b := by
  rw [field, and_two_pow_sub_one_eq_mod, shiftRight_eq_div_pow]

theorem field_shiftRight (b x k t : ℕ) : field b (x >>> (b * k)) t = field b x (k + t) := by
  rw [field, field, ← shiftRight_add, Nat.mul_add]

/-- A field put on top of `k` of them. -/
def putTop (b x k v : ℕ) : ℕ := v <<< (b * k) ||| x

theorem putTop_eq {v : ℕ} (hx : x < 2 ^ (b * k)) : putTop b x k v = v * 2 ^ (b * k) + x := by
  rw [putTop, ← shiftLeft_add_eq_or_of_lt hx, shiftLeft_eq]

theorem putTop_lt {v : ℕ} (hx : x < 2 ^ (b * k)) (hv : v < 2 ^ b) :
    putTop b x k v < 2 ^ (b * (k + 1)) := by
  rw [putTop_eq hx]
  calc v * 2 ^ (b * k) + x < (v + 1) * 2 ^ (b * k) := by rw [succ_mul]; omega
    _ ≤ 2 ^ b * 2 ^ (b * k) := Nat.mul_le_mul_right _ hv
    _ = 2 ^ (b * (k + 1)) := by rw [← pow_add]; ring_nf

theorem field_putTop_self {v : ℕ} (hx : x < 2 ^ (b * k)) (hv : v < 2 ^ b) :
    field b (putTop b x k v) k = v := by
  rw [field_eq, putTop_eq hx, Nat.add_comm, add_mul_div_right _ _ (Nat.two_pow_pos _),
    div_eq_of_lt hx, Nat.zero_add, mod_eq_of_lt hv]

theorem field_putTop_of_lt {v : ℕ} (hx : x < 2 ^ (b * k)) (ht : t < k) :
    field b (putTop b x k v) t = field b x t := by
  obtain ⟨r, rfl⟩ := Nat.exists_eq_add_of_lt ht
  have hv : v * 2 ^ (b * (t + r + 1)) = v * 2 ^ (b * r) * 2 ^ b * 2 ^ (b * t) := by ring
  rw [field_eq, field_eq, putTop_eq hx, hv, Nat.add_comm, add_mul_div_right _ _ (Nat.two_pow_pos _),
    add_mul_mod_self_right]

end Memory
