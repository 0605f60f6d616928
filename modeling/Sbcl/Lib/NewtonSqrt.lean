import Mathlib.Algebra.Order.Floor.Semifield
import Mathlib.Analysis.Real.Sqrt
import Mathlib.Tactic.Positivity

/-!
# Square roots by divisions of doubling precision

* `Near` : a natural number is off a real one by at most one above it, and by less than one below;
* `Near.newton` : a root of the leading digits, extended by the digits of one quotient, is near the
  root of more digits;
* `Near.floor`, `Near.shift` : the digits of the radicand, or of its root, that are not looked at;
* `Near.isqrt` : what is near the root is the integer root or the number behind it, and one
  comparison tells.
-/

namespace NewtonSqrt

open Nat

variable {n a : ℕ} {x : ℝ}

def Near (a : ℕ) (x : ℝ) : Prop := a ≤ x + 1 ∧ x < a + 1

/-! ## Digits left out -/

theorem near_of_sq {y : ℝ} (hlow : (a : ℝ) ^ 2 ≤ y) (hhigh : y < ((a + 1 : ℕ) + 1) ^ 2) :
    Near (a + 1) (√y) := by
  refine ⟨?_, (Real.sqrt_lt' (by positivity)).2 hhigh⟩
  push_cast
  linarith [Real.le_sqrt_of_sq_le hlow]

theorem Near.of_floor {y : ℝ} (hx : 0 ≤ x) (hxy : x ≤ y) (hyx : y ≤ x + 1) : Near ⌊y⌋₊ x :=
  ⟨(floor_le (hx.trans hxy)).trans hyx, hxy.trans_lt (lt_floor_add_one y)⟩

theorem Near.shift {t : ℕ} (h : Near a x) : Near (a / 2 ^ t) (x / 2 ^ t) := by
  have hp : (0 : ℝ) < 2 ^ t := by positivity
  have hone : (1 : ℝ) ≤ 2 ^ t := one_le_pow₀ one_le_two
  refine ⟨?_, ?_⟩
  · have hmul : ((a / 2 ^ t * 2 ^ t : ℕ) : ℝ) ≤ a := cast_le.2 (div_mul_le_self a _)
    push_cast at hmul
    have hdiv : x / 2 ^ t * 2 ^ t = x := div_mul_cancel₀ x hp.ne'
    refine le_of_mul_le_mul_right ?_ hp
    linarith [h.1]
  · have hlt : a + 1 ≤ (a / 2 ^ t + 1) * 2 ^ t := by
      have : a < a / 2 ^ t * 2 ^ t + 2 ^ t := lt_div_mul_add (Nat.two_pow_pos t)
      linarith
    have hlt' : ((a + 1 : ℕ) : ℝ) ≤ ((a / 2 ^ t + 1) * 2 ^ t : ℕ) := cast_le.2 hlt
    push_cast at hlt'
    rw [div_lt_iff₀ hp]
    linarith [h.2]

theorem Near.floor {m : ℕ} {y : ℝ} (hm : m ≤ y) (hy : y < m + 1) (h : Near a (√m)) :
    Near a (√y) := by
  refine ⟨h.1.trans (by gcongr), ?_⟩
  have hlt : (m : ℝ) < ((a + 1 : ℕ) : ℝ) ^ 2 := by
    push_cast
    exact (Real.sqrt_lt' (by positivity)).1 h.2
  have hle : m + 1 ≤ (a + 1) ^ 2 := by exact_mod_cast hlt
  have hle' : (m : ℝ) + 1 ≤ (a + 1) ^ 2 := by exact_mod_cast hle
  exact (Real.sqrt_lt' (by positivity)).2 (hy.trans_le hle')

theorem sqrt_div_four_pow (n t : ℕ) : √((n : ℝ) / 4 ^ t) = √n / 2 ^ t := by
  rw [Real.sqrt_div (cast_nonneg n), show (4 : ℝ) ^ t = (2 ^ t) ^ 2 by rw [← pow_mul, mul_comm, pow_mul]; norm_num,
    Real.sqrt_sq (by positivity)]

theorem Near.of_high {t : ℕ} (h : Near a (√(n / 4 ^ t : ℕ))) : Near a (√n / 2 ^ t) := by
  have hp : (0 : ℝ) < 4 ^ t := by positivity
  rw [← sqrt_div_four_pow]
  refine h.floor ?_ ?_
  · rw [le_div_iff₀ hp]
    exact_mod_cast div_mul_le_self n (4 ^ t)
  rw [div_lt_iff₀ hp]
  have : n < n / 4 ^ t * 4 ^ t + 4 ^ t := lt_div_mul_add (by positivity)
  have hlt : n < (n / 4 ^ t + 1) * 4 ^ t := by linarith
  exact_mod_cast hlt

/-! ## A step -/

theorem mean_eq {A : ℝ} (hA : 0 < A) : A / 2 + x ^ 2 / (2 * A) = x + (A - x) ^ 2 / (2 * A) := by
  field_simp
  ring

theorem mean_le {A d : ℝ} (hA : 0 < A) (hd : |A - x| ≤ d) (hsq : d ^ 2 ≤ 2 * A) :
    A / 2 + x ^ 2 / (2 * A) ≤ x + 1 := by
  rw [mean_eq hA]
  have : (A - x) ^ 2 / (2 * A) ≤ 1 := by
    rw [div_le_one (by positivity)]
    exact (sq_le_sq' (by linarith [neg_abs_le (A - x)]) ((le_abs_self _).trans hd)).trans hsq
  linarith

theorem le_mean {A : ℝ} (hA : 0 < A) : x ≤ A / 2 + x ^ 2 / (2 * A) := by
  rw [mean_eq hA]
  have : 0 ≤ (A - x) ^ 2 / (2 * A) := by positivity
  linarith

theorem Near.newton {j k : ℕ} (hk : 0 < k) (h : Near a (√n / 2 ^ (j + k))) (ha : 2 ^ k ≤ 2 * a) :
    Near (a * 2 ^ (k - 1) + n / 2 ^ (2 * j + k + 1) / a) (√n / 2 ^ j) := by
  obtain ⟨k, rfl⟩ := exists_eq_succ_of_ne_zero hk.ne'
  have ha0 : 0 < a := by
    have := Nat.two_pow_pos (k + 1)
    omega
  have hx0 : 0 ≤ √(n : ℝ) / 2 ^ j := by positivity
  have hsq : (√(n : ℝ) / 2 ^ j) ^ 2 = n / (2 ^ j) ^ 2 := by
    rw [div_pow, Real.sq_sqrt (cast_nonneg n)]
  have hhigh : √(n : ℝ) / 2 ^ (j + (k + 1)) = √n / 2 ^ j / 2 ^ (k + 1) := by rw [pow_add, div_div]
  generalize √(n : ℝ) / 2 ^ j = x at hx0 hsq hhigh ⊢
  rw [hhigh] at h
  have hp : (0 : ℝ) < 2 ^ (k + 1) := by positivity
  have hA : (0 : ℝ) < a * 2 ^ (k + 1) := by positivity
  have hxp : x / 2 ^ (k + 1) * 2 ^ (k + 1) = x := div_mul_cancel₀ x hp.ne'
  have herr : |(a : ℝ) * 2 ^ (k + 1) - x| ≤ 2 ^ (k + 1) := by
    rw [abs_le]
    constructor
    · have := mul_le_mul_of_nonneg_right h.2.le hp.le
      linarith
    · have := mul_le_mul_of_nonneg_right h.1 hp.le
      linarith
  have hsmall : ((2 : ℝ) ^ (k + 1)) ^ 2 ≤ 2 * (a * 2 ^ (k + 1)) := by
    have : (2 : ℝ) ^ (k + 1) ≤ 2 * a := by exact_mod_cast ha
    calc ((2 : ℝ) ^ (k + 1)) ^ 2 = 2 ^ (k + 1) * 2 ^ (k + 1) := sq _
      _ ≤ 2 * a * 2 ^ (k + 1) := mul_le_mul_of_nonneg_right this hp.le
      _ = 2 * (a * 2 ^ (k + 1)) := mul_assoc _ _ _
  have hquot : (a * 2 ^ (k + 1) : ℝ) / 2 + x ^ 2 / (2 * (a * 2 ^ (k + 1))) =
      (a * 2 ^ k : ℕ) + (n : ℝ) / (2 ^ (2 * j + (k + 1) + 1) * a : ℕ) := by
    rw [hsq]
    push_cast
    have hpow : (2 : ℝ) ^ (2 * j + (k + 1) + 1) = (2 ^ j) ^ 2 * 2 ^ (k + 1) * 2 := by
      rw [← pow_mul, mul_comm j 2, pow_succ, pow_add]
    rw [hpow, pow_succ]
    field_simp
  have hfloor : a * 2 ^ k + n / 2 ^ (2 * j + (k + 1) + 1) / a =
      ⌊(a * 2 ^ (k + 1) : ℝ) / 2 + x ^ 2 / (2 * (a * 2 ^ (k + 1)))⌋₊ := by
    rw [hquot, add_comm (Nat.cast _), floor_add_natCast (by positivity), floor_div_eq_div,
      Nat.div_div_eq_div_mul, add_comm]
  rw [show k.succ - 1 = k from rfl, show k.succ = k + 1 from rfl, hfloor]
  exact Near.of_floor hx0 (le_mean hA) (mean_le hA herr hsmall)

theorem Near.le {e : ℕ} (h : Near a x) (hx : (e : ℝ) ≤ x) : e ≤ a := by
  have : (e : ℝ) < (a + 1 : ℕ) := by
    push_cast
    exact hx.trans_lt h.2
  exact Nat.lt_succ_iff.1 (cast_lt.1 this)

theorem le_sqrt_div {c t : ℕ} (hn : 4 ^ c ≤ n) (ht : t ≤ c) :
    ((2 ^ (c - t) : ℕ) : ℝ) ≤ √n / 2 ^ t := by
  rw [le_div_iff₀ (by positivity)]
  refine Real.le_sqrt_of_sq_le ?_
  rw [← cast_ofNat (R := ℝ), ← cast_pow, ← cast_mul, ← pow_add, Nat.sub_add_cancel ht, ← cast_pow,
    cast_le, ← pow_mul, mul_comm, pow_mul]
  exact hn

/-- The number of which the square is at most `n`, and the square of the next one is above. -/
def IsRoot (n r : ℕ) : Prop := r * r ≤ n ∧ n < (r + 1) * (r + 1)

theorem Near.bounds (h : Near a (√n)) : (a - 1) * (a - 1) ≤ n ∧ n < (a + 1) * (a + 1) := by
  constructor
  · rcases Nat.eq_zero_or_pos a with rfl | hpos
    · exact Nat.zero_le n
    have hle : ((a - 1 : ℕ) : ℝ) ≤ √n := by
      rw [cast_sub hpos, cast_one]
      linarith [h.1]
    rw [Real.le_sqrt (cast_nonneg _) (cast_nonneg _), sq] at hle
    exact_mod_cast hle
  · have hlt := (Real.sqrt_lt' (by positivity)).1 h.2
    rw [sq] at hlt
    exact_mod_cast hlt

theorem Near.isRoot (h : Near a (√n)) : IsRoot n (if n < a * a then a - 1 else a) := by
  obtain ⟨hlow, hhigh⟩ := h.bounds
  by_cases hlt : n < a * a
  · rw [if_pos hlt]
    have hpos : 0 < a := Nat.pos_of_ne_zero fun h0 => by simp [h0] at hlt
    exact ⟨hlow, by rwa [Nat.sub_add_cancel hpos]⟩
  · rw [if_neg hlt]
    exact ⟨not_lt.1 hlt, hhigh⟩

/-- Near the root is only the integer root and the number behind it. -/
theorem Near.eq_or {r : ℕ} (h : Near a (√n)) (hr : IsRoot n r) : a = r ∨ a = r + 1 := by
  obtain ⟨hlow, hhigh⟩ := h.bounds
  have hle : a - 1 ≤ r := Nat.lt_succ_iff.1 (Nat.mul_self_lt_mul_self_iff.1 (hlow.trans_lt hr.2))
  have hge : r ≤ a := Nat.lt_succ_iff.1 (Nat.mul_self_lt_mul_self_iff.1 (hr.1.trans_lt hhigh))
  omega

end NewtonSqrt
