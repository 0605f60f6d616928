import Sbcl.Lib.IntBits
import Sbcl.Lib.Limbs

/-!
# The bits of numbers in limbs

* `testBit_val`, `testBit_sval` : a bit of a number is a bit of one of its limbs, continued by their
  sign;
* `sval_of_testBit` : a number in range is read back from limbs that have its bits;
* `fits_iff` : a number fits in limbs if it is all sign from their last bit on;
* `dotimes_update` : the limbs that a loop stores one after the other.
-/

namespace Limbs

open Function BitVec

variable {w n m : ℕ} {f g : Buffer w} {z : ℤ}

/-! ## Bits -/

theorem testBit_val (f : Buffer w) {k j : ℕ} (hk : k < n) (hj : j < w) :
    (val f n).testBit (w * k + j) = (f k).getLsbD j := by
  induction n with
  | zero => exact absurd hk k.not_lt_zero
  | succ n ih =>
    rw [val_succ, Nat.add_comm, Nat.mul_comm, Nat.testBit_two_pow_mul_add _ (val_lt f n)]
    rcases Nat.lt_succ_iff_lt_or_eq.1 hk with hlt | rfl
    · have hle : w * (k + 1) ≤ w * n := Nat.mul_le_mul_left w hlt
      rw [if_pos (by rw [Nat.mul_add] at hle; omega)]
      exact ih hlt
    · rw [if_neg (by omega), Nat.add_sub_cancel_left, testBit_toNat]

theorem toNat_limb (f : Buffer w) {k : ℕ} (hk : k < n) :
    (f k).toNat = val f n / 2 ^ (w * k) % 2 ^ w := by
  apply Nat.eq_of_testBit_eq
  intro j
  rw [Nat.testBit_mod_two_pow, Nat.testBit_div_two_pow, Nat.add_comm j]
  by_cases hj : j < w
  · rw [testBit_val f hk hj, testBit_toNat, decide_eq_true hj, Bool.true_and]
  · rw [testBit_toNat, getLsbD_of_ge _ _ (not_lt.1 hj), decide_eq_false hj, Bool.false_and]

theorem val_eq_zero_iff (f : Buffer w) (n : ℕ) : val f n = 0 ↔ ∀ i < n, f i = 0 := by
  induction n with
  | zero => simp [val]
  | succ n ih =>
    have hpow := (Nat.two_pow_pos (w * n)).ne'
    have hlast : (f n).toNat = 0 ↔ f n = 0 := toNat_inj (y := 0#w)
    rw [val_succ, Nat.add_eq_zero_iff, Nat.mul_eq_zero, or_iff_left hpow, ih, hlast]
    constructor
    · rintro ⟨h, h'⟩ i hi
      rcases Nat.lt_succ_iff_lt_or_eq.1 hi with hlt | rfl
      · exact h i hlt
      · exact h'
    · intro h
      exact ⟨fun i hi => h i (Nat.lt_succ_of_lt hi), h n (Nat.lt_succ_self n)⟩

theorem exists_place (hw : 0 < w) (i : ℕ) : ∃ k j, j < w ∧ i = w * k + j :=
  ⟨i / w, i % w, Nat.mod_lt i hw, (Nat.div_add_mod i w).symm⟩

theorem testBit_of_modEq {y z : ℤ} (h : y ≡ z [ZMOD 2 ^ m]) {i : ℕ} (hi : i < m) :
    y.testBit i = z.testBit i := by
  have hy := IntBits.testBit_emod y m i
  have hz := IntBits.testBit_emod z m i
  rw [show y % 2 ^ m = z % 2 ^ m from h] at hy
  simpa [hi] using hy.symm.trans hz

theorem testBit_sval (f : Buffer w) (n : ℕ) {k j : ℕ} (hj : j < w) :
    (sval f n).testBit (w * k + j) = (ext f n k).getLsbD j := by
  have hle : w * k + j < w * (max n (k + 1)) :=
    (Nat.add_lt_add_left hj _).trans_le
      ((Nat.mul_succ w k).symm.trans_le (Nat.mul_le_mul_left w (le_max_right n (k + 1))))
  rw [← testBit_of_modEq (val_ext_modEq f (le_max_left n (k + 1))) hle, IntBits.testBit_natCast]
  exact testBit_val _ ((Nat.lt_succ_self k).trans_le (le_max_right n (k + 1))) hj

theorem modEq_of_testBit {y z : ℤ} (h : ∀ i < m, y.testBit i = z.testBit i) :
    y ≡ z [ZMOD 2 ^ m] := by
  refine IntBits.eq_of_testBit_eq fun i => ?_
  rw [IntBits.testBit_emod, IntBits.testBit_emod]
  by_cases hi : i < m
  · rw [h i hi]
  · simp [hi]

theorem sval_of_testBit (hw : 0 < w) (hn : 0 < n) (hz : Fits w n z)
    (h : ∀ k < n, ∀ j < w, z.testBit (w * k + j) = (f k).getLsbD j) : sval f n = z := by
  refine sval_of_modEq hw hn (modEq_of_testBit fun i hi => ?_) hz.1 hz.2
  obtain ⟨k, j, hj, rfl⟩ := exists_place hw i
  have hk : k < n := by
    by_contra hc
    exact absurd (hi.trans_le (Nat.mul_le_mul_left w (not_lt.1 hc))) (by omega)
  rw [IntBits.testBit_natCast, testBit_val f hk hj, h k hk j hj]

theorem fits_iff (hw : 0 < w) (hn : 0 < n) : Fits w n z ↔ IntBits.Fits (w * n - 1) z := by
  have hpos : 0 < w * n := Nat.mul_pos hw hn
  have hpow : (2 : ℤ) ^ (w * n) = 2 * 2 ^ (w * n - 1) := by
    rw [← pow_succ', Nat.sub_add_cancel hpos]
  unfold Fits IntBits.Fits
  rw [hpow]
  constructor <;> rintro ⟨h1, h2⟩ <;> constructor <;> linarith

theorem sval_succ (f : Buffer w) (n : ℕ) :
    sval f (n + 1) = val f n + (f n).toInt * 2 ^ (w * n) := by
  have hradix : (2 : ℤ) ^ (w * (n + 1)) = 2 ^ w * 2 ^ (w * n) := by exact_mod_cast radix_succ w n
  rw [sval, signBit, Nat.add_sub_cancel, val_succ, toInt_eq_msb_cond, hradix]
  push_cast
  split_ifs <;> ring

theorem dotimes_update (n m : ℕ) (v : ℕ → BitVec w) (f : Buffer w) :
    dotimes n f (fun i f => update f (m + i) (v i)) = fun i =>
      if m ≤ i ∧ i < m + n then v (i - m) else f i := by
  induction n with
  | zero =>
    funext i
    rw [if_neg (by omega)]
    rfl
  | succ n ih =>
    funext i
    show update (dotimes n f fun i f => update f (m + i) (v i)) (m + n) (v n) i = _
    rw [ih]
    by_cases hi : i = m + n
    · rw [hi, update_self, if_pos (by omega), Nat.add_sub_cancel_left]
    · rw [update_of_ne hi]
      exact if_congr (by omega) rfl rfl

end Limbs
