import Mathlib.Data.Int.ModEq
import Mathlib.Tactic.Linarith
import Mathlib.Tactic.Ring

/-!
# Divisibility through a modular inverse

* `modEq_mul_inverse_iff` : what a product with the inverse of `d` is congruent to;
* `emod_add_le_iff` : one unsigned comparison, after an addition, is membership in a window of
  residues;
* `dvd_iff_exists_window` : the multiples of `d` in a range, as the residues of a window that is
  wide enough and not too wide.
-/

namespace ModularInverse

variable {M d inv x : ℤ}

theorem modEq_mul_inverse_iff (h : d * inv ≡ 1 [ZMOD M]) {k : ℤ} : k ≡ x * inv [ZMOD M] ↔
    d * k ≡ x [ZMOD M] := by
  refine ⟨fun hk => ?_, fun hk => ?_⟩
  · calc d * k ≡ d * (x * inv) [ZMOD M] := hk.mul_left d
      _ = x * (d * inv) := by ring
      _ ≡ x * 1 [ZMOD M] := h.mul_left x
      _ = x := mul_one x
  · calc k = k * 1 := (mul_one k).symm
      _ ≡ k * (d * inv) [ZMOD M] := (h.mul_left k).symm
      _ = d * k * inv := by ring
      _ ≡ x * inv [ZMOD M] := hk.mul_right inv

theorem emod_add_le_iff {a b n : ℤ} (hM : 0 < M) (hb : b < M) :
    (n + a) % M ≤ b ↔ ∃ k, -a ≤ k ∧ k ≤ b - a ∧ k ≡ n [ZMOD M] := by
  refine ⟨fun h => ⟨(n + a) % M - a, ?_, by omega, ?_⟩, ?_⟩
  · have := Int.emod_nonneg (n + a) hM.ne'
    omega
  · calc (n + a) % M - a ≡ n + a - a [ZMOD M] := (Int.mod_modEq _ _).sub_right a
      _ = n := by ring
  rintro ⟨k, hlow, hhigh, hk⟩
  have hmod : (n + a) % M = k + a := by
    rw [← (hk.add_right a).eq]
    exact Int.emod_eq_of_lt (by omega) (by omega)
  omega

theorem eq_of_modEq {a b : ℤ} (h : a ≡ b [ZMOD M]) (hlow : -M < a - b)
    (hhigh : a - b < M) : a = b := by
  have hzero : a - b = 0 := Int.eq_zero_of_abs_lt_dvd h.symm.dvd (abs_lt.2 ⟨hlow, hhigh⟩)
  omega

/-- A window of quotients that has those of all multiples in a range, and where every product is
near that range. -/
theorem dvd_iff_exists_window {lo hi : ℤ} (hin : ∀ k, x = d * k → lo ≤ k ∧ k ≤ hi)
    (hnear : ∀ k, lo ≤ k → k ≤ hi → -M < d * k - x ∧ d * k - x < M) :
    d ∣ x ↔ ∃ k, lo ≤ k ∧ k ≤ hi ∧ d * k ≡ x [ZMOD M] := by
  refine ⟨?_, ?_⟩
  · rintro ⟨k, hk⟩
    exact ⟨k, (hin k hk).1, (hin k hk).2, by rw [hk]⟩
  · rintro ⟨k, hlow, hhigh, hk⟩
    exact ⟨k, (eq_of_modEq hk (hnear k hlow hhigh).1 (hnear k hlow hhigh).2).symm⟩

end ModularInverse
