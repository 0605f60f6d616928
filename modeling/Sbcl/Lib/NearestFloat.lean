import Mathlib.Data.Int.Log
import Mathlib.Data.Rat.Floor
import Sbcl.Lib.BinaryFloat

/-!
# The nearest number of a format

* `roundEven` : the nearest natural number, the even one of two;
* `nearest` : the nearest number of a format, from the magnitude of a rational;
* `roundsTo_nearest` : it is the one that the rational is rounded to;
* `le_nearest_iff`, `nearest_eq_zero_iff` : the rationals that are rounded to a number or above it,
  and those that are rounded to zero.
-/

namespace BinaryFloat

open Nat

variable {F : Format}

def roundEven (y : ℚ) : ℕ :=
  let q := ⌊y⌋₊
  if y - q < 1 / 2 ∨ y - q = 1 / 2 ∧ Even q then q else q + 1

theorem roundsEven_roundEven {y : ℚ} (hy : 0 ≤ y) : RoundsEven y (roundEven y) := by
  have hlow := floor_le hy
  have hhigh := lt_floor_add_one y
  unfold roundEven
  generalize ⌊y⌋₊ = q at hlow hhigh ⊢
  dsimp only
  split_ifs with h
  · rw [RoundsEven, abs_of_nonneg (sub_nonneg.2 hlow)]
    rcases h with h | ⟨h, heven⟩
    · exact ⟨h.le, fun htie => absurd htie h.ne⟩
    · exact ⟨h.le, fun _ => heven⟩
  push Not at h
  rw [RoundsEven, abs_of_nonpos (by push_cast; linarith)]
  push_cast
  refine ⟨by linarith [h.1], fun htie => ?_⟩
  exact Nat.even_add_one.2 (h.2 (by linarith))

/-! ## Numbers of a format -/

namespace Format

variable (F)

/-- The place of the unit of a rational above that of the least number. -/
def unitPlace (v : ℚ) : ℕ := (Int.log 2 v - (F.digits - 1 : ℕ) - F.minExponent).toNat

def nearest (v : ℚ) : ℕ :=
  if v = 0 then 0
  else
    let j := F.unitPlace v
    roundEven (v / 2 ^ (F.minExponent + j)) + j * 2 ^ (F.digits - 1)

end Format

open Format

theorem roundsTo_nearest {v : ℚ} (hv : 0 ≤ v) : RoundsTo F v (F.nearest v) := by
  unfold Format.nearest
  have hdigits := F.one_lt
  split_ifs with h0
  · have hround : RoundsEven (v / 2 ^ (F.minExponent + (0 : ℕ))) 0 := by
      rw [h0, zero_div]
      exact ⟨by norm_num, fun _ => Even.zero⟩
    have hhigh : v < 2 ^ F.digits * 2 ^ (F.minExponent + (0 : ℕ)) := by
      rw [h0]
      exact mul_pos (by positivity) (zpow_pos two_pos _)
    have h := (roundsTo_of_roundsEven (.inl rfl) hhigh hround).2.2
    rwa [Nat.zero_mul, Nat.add_zero] at h
  · have hpos : 0 < v := lt_of_le_of_ne hv (Ne.symm h0)
    have hpow (j : ℕ) : (0 : ℚ) < 2 ^ (F.minExponent + j) := zpow_pos two_pos _
    have hlog := Int.zpow_log_le_self (b := 2) one_lt_two hpos
    have hlog' := Int.lt_zpow_succ_log_self (b := 2) one_lt_two v
    have hlow : F.unitPlace v = 0 ∨
        2 ^ (F.digits - 1) * 2 ^ (F.minExponent + F.unitPlace v) ≤ v := by
      rcases Nat.eq_zero_or_pos (F.unitPlace v) with hzero | hplace
      · exact .inl hzero
      right
      have hexp : ((F.digits - 1 : ℕ) : ℤ) + (F.minExponent + F.unitPlace v) = Int.log 2 v := by
        unfold Format.unitPlace at hplace ⊢
        omega
      rwa [← zpow_natCast, ← zpow_add₀ two_ne_zero, hexp]
    have hhigh : v < 2 ^ F.digits * 2 ^ (F.minExponent + F.unitPlace v) := by
      refine hlog'.trans_le ?_
      rw [← zpow_natCast, ← zpow_add₀ two_ne_zero]
      refine zpow_le_zpow_right₀ one_le_two ?_
      unfold Format.unitPlace
      omega
    exact (roundsTo_of_roundsEven hlow hhigh (roundsEven_roundEven (div_nonneg hv (hpow _).le))).2.2

/-- From the middle to the number below, which is rounded to the even one of the two. -/
theorem le_nearest_iff {v : ℚ} (hv : 0 ≤ v) {b : ℕ} (hb : 0 < b) :
    b ≤ F.nearest v ↔ Below (b % 2 = 0) ((F.value (b - 1) + F.value b) / 2) v := by
  have hround := roundsTo_nearest (F := F) hv
  generalize F.nearest v = n at hround ⊢
  have hmono := value_strictMono F
  constructor
  · intro hle
    have hlt := hmono (show b - 1 < n by omega)
    have hle' := hmono.monotone hle
    rcases hround (b - 1) (by omega) with hnear | ⟨htie, heven⟩
    · have hmiddle := (dist_lt_right hlt).1 hnear
      exact below_of_lt (by linarith)
    have hmiddle := eq_middle hlt htie.symm
    rcases Nat.lt_or_eq_of_le hle with hgt | rfl
    · have hgt' := hmono hgt
      exact below_of_lt (by linarith)
    · rw [even_significand, even_iff] at heven
      rw [Below, if_pos (decide_eq_true heven)]
      exact hmiddle.ge
  · intro hbelow
    by_contra hlt
    have hlt' := hmono (not_le.1 hlt)
    have hle := hmono.monotone (show n ≤ b - 1 by omega)
    rcases hround b (by omega) with hnear | ⟨htie, heven⟩
    · have hmiddle := (dist_lt_left hlt').1 hnear
      linarith [hbelow.le]
    -- A tie between neighbours is for the even one.
    have hmiddle := eq_middle hlt' htie
    have hequal : n = b - 1 := hmono.injective (le_antisymm hle (by linarith [hbelow.le]))
    rw [even_significand, even_iff] at heven
    rw [hmiddle, hequal, Below, if_neg (by rw [decide_eq_true_iff]; omega)] at hbelow
    exact lt_irrefl _ hbelow

theorem nearest_eq_zero_iff {v : ℚ} (hv : 0 ≤ v) : F.nearest v = 0 ↔ v ≤ 2 ^ F.minExponent / 2 := by
  have h := le_nearest_iff (F := F) hv one_pos
  have hzero := value_multiple F (q := 0) (j := 0) (Nat.zero_le _) (.inl rfl)
  have hone := value_multiple F (q := 1) (j := 0) Nat.one_le_two_pow (.inl rfl)
  rw [Nat.zero_mul, Nat.add_zero, cast_zero, zero_mul] at hzero
  rw [Nat.zero_mul, Nat.add_zero, cast_one, one_mul, cast_zero, add_zero] at hone
  rw [Nat.sub_self, hzero, hone, zero_add, Below, if_neg (by decide), one_le_iff_ne_zero] at h
  rw [← not_lt, ← h, not_not]

end BinaryFloat
