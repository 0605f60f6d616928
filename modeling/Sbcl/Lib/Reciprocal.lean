import Mathlib.Tactic.Linarith
import Mathlib.Tactic.Ring

/-!
# Division by a constant as a product with a reciprocal

* `Reciprocal D y B m` : `m / D` is above `1 / y`, and near enough for dividends below `B`;
* `Reciprocal.mul_ediv` : such a product, floored by `D`, is the floored quotient;
* `Reciprocal.of_ediv` : a quotient by `y` rounded above that of `D`, with an error of at most `D /
  B`;
* `mul_ediv_add`, `add_ediv_two` : the product with a multiplier of one more bit than a word,
  without that bit;
* `mul_mod_mul_div` : the remainder from the fraction of a product with a reciprocal.
-/

/-- `m / D` approximates `1 / y` from above for dividends below `B`. -/
structure Reciprocal (D y B m : ℤ) : Prop where
  lower : D ≤ m * y
  upper : m * y * B ≤ D * (B + 1)

namespace Reciprocal

variable {D y B m x : ℤ}

theorem mul_ediv (h : Reciprocal D y B m) (hD : 0 < D) (hy : 0 < y) (hx : 0 ≤ x) (hxB : x < B) :
    x * m / D = x / y := by
  have hq : x / y * y ≤ x := Int.ediv_mul_le x hy.ne'
  have hlt : x + 1 ≤ (x / y + 1) * y := Int.lt_ediv_add_one_mul_self x hy
  have hB : 0 < B := by linarith
  refine le_antisymm (Int.lt_add_one_iff.1 ?_) ?_
  · rw [Int.ediv_lt_iff_lt_mul hD]
    -- multiplied by `y * B`, the error `x` of the reciprocal is below `B`
    refine lt_of_mul_lt_mul_right (a := y * B) ?_ (by positivity)
    calc x * m * (y * B) = x * (m * y * B) := by ring
      _ ≤ x * (D * (B + 1)) := Int.mul_le_mul_of_nonneg_left h.upper hx
      _ = D * (x * B + x) := by ring
      _ < D * (x * B + B) := by gcongr
      _ = D * B * (x + 1) := by ring
      _ ≤ D * B * ((x / y + 1) * y) := by gcongr
      _ = (x / y + 1) * D * (y * B) := by ring
  · rw [Int.le_ediv_iff_mul_le hD]
    have h0 : 0 ≤ x / y := Int.ediv_nonneg hx hy.le
    have hm : 0 ≤ m := by
      by_contra hn
      have : m * y < 0 := mul_neg_of_neg_of_pos (by omega) hy
      linarith [h.lower]
    calc x / y * D ≤ x / y * (m * y) := Int.mul_le_mul_of_nonneg_left h.lower h0
      _ = x / y * y * m := by ring
      _ ≤ x * m := Int.mul_le_mul_of_nonneg_right hq hm

theorem of_ediv {E : ℤ} (hy : 0 < y) (hB : 0 ≤ B) (hE : E * B ≤ D) (hlo : D / y < m)
    (hhi : m ≤ (D + E) / y) : Reciprocal D y B m where
  lower := by
    rw [Int.ediv_lt_iff_lt_mul hy] at hlo
    exact hlo.le
  upper := by
    rw [Int.le_ediv_iff_mul_le hy] at hhi
    calc m * y * B ≤ (D + E) * B := Int.mul_le_mul_of_nonneg_right hhi hB
      _ = D * B + E * B := by ring
      _ ≤ D * (B + 1) := by linarith

end Reciprocal

theorem mul_sub_ediv_add {n : ℤ} (hn : 0 < n) (x m : ℤ) : x * (m - n) / n + x = x * m / n := by
  rw [← Int.add_mul_ediv_right _ _ hn.ne']
  ring_nf

theorem add_sub_ediv_two (t x : ℤ) : t + (x - t) / 2 = (t + x) / 2 := by
  omega

/-- The fraction of the product with `m / D`, multiplied by the divisor and floored, is the
remainder, as long as the error of `m / D` does not add up to one. -/
theorem mul_mod_mul_div {D d m n : ℕ} (hd : 0 < d) (hlower : D ≤ m * d)
    (herror : (m * d - D) * n < D) : n * m % D * d / D = n % d := by
  obtain ⟨e, he⟩ := Nat.exists_eq_add_of_le hlower
  rw [he, Nat.add_sub_cancel_left] at herror
  have hr : n % d < d := Nat.mod_lt n hd
  have hn : d * (n / d) + n % d = n := Nat.div_add_mod n d
  -- the part of the product above its whole quotient
  have hlow : (n / d * e + n % d * m) * d = n % d * D + e * n := by
    calc (n / d * e + n % d * m) * d = n / d * d * e + n % d * (m * d) := by ring
      _ = n % d * D + e * (d * (n / d) + n % d) := by rw [he]; ring
      _ = n % d * D + e * n := by rw [hn]
  have hlt : n / d * e + n % d * m < D := by
    refine lt_of_mul_lt_mul_right (a := d) ?_ d.zero_le
    calc (n / d * e + n % d * m) * d = n % d * D + e * n := hlow
      _ < n % d * D + D := by gcongr
      _ = (n % d + 1) * D := by ring
      _ ≤ d * D := by gcongr; omega
      _ = D * d := mul_comm d D
  have hproduct : n * m = n / d * e + n % d * m + D * (n / d) := by
    calc n * m = (d * (n / d) + n % d) * m := by rw [hn]
      _ = n / d * (m * d) + n % d * m := by ring
      _ = n / d * e + n % d * m + D * (n / d) := by rw [he]; ring
  rw [hproduct, Nat.add_mul_mod_self_left, Nat.mod_eq_of_lt hlt, hlow, add_comm, mul_comm (n % d) D,
    Nat.add_mul_div_left _ _ (by omega), Nat.div_eq_of_lt herror, zero_add]
