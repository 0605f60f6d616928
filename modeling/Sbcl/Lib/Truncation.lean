import Mathlib.Data.Int.ModEq
import Sbcl.Lib.IntBits

/-!
# Truncation of integers to a width

* `cut signed w x` : the integer of `w` bits, signed or not, whose bits are the low `w` bits of `x`;
* `modEq_iff_testBit` : congruence modulo a power of two, bit by bit; the bitwise operations respect
  it;
* `cut_modEq`, `cut_congr`, `IsCut.eq_of_modEq` : an integer of `w` bits is the only one of its
  class;
* `isCut_false_iff`, `isCut_true_iff` : the ranges;
* `cut_land`, `cut_lor`, `cut_lxor`, `cut_lnot` : truncation of the bitwise operations.
-/

namespace Truncation

open Int IntBits

variable {signed : Bool} {w m : ℕ} {a b x y : ℤ}

theorem modEq_iff_testBit : x ≡ y [ZMOD 2 ^ m] ↔ ∀ i < m, x.testBit i = y.testBit i := by
  constructor
  · intro h i hi
    have hbit := congrArg (fun z : ℤ => z.testBit i) h
    simpa [testBit_emod, hi] using hbit
  intro h
  refine eq_of_testBit_eq fun i => ?_
  rw [testBit_emod, testBit_emod]
  by_cases hi : i < m
  · rw [h i hi]
  · rw [decide_eq_false hi, Bool.false_and, Bool.false_and]

theorem modEq_mono (h : x ≡ y [ZMOD 2 ^ w]) (hm : m ≤ w) : x ≡ y [ZMOD 2 ^ m] :=
  h.of_dvd (pow_dvd_pow 2 hm)

theorem land_modEq (hx : a ≡ x [ZMOD 2 ^ m]) (hy : b ≡ y [ZMOD 2 ^ m]) :
    land a b ≡ land x y [ZMOD 2 ^ m] := by
  rw [modEq_iff_testBit] at *
  intro i hi
  rw [testBit_land, testBit_land, hx i hi, hy i hi]

theorem lor_modEq (hx : a ≡ x [ZMOD 2 ^ m]) (hy : b ≡ y [ZMOD 2 ^ m]) :
    lor a b ≡ lor x y [ZMOD 2 ^ m] := by
  rw [modEq_iff_testBit] at *
  intro i hi
  rw [testBit_lor, testBit_lor, hx i hi, hy i hi]

theorem lnot_modEq (hx : a ≡ x [ZMOD 2 ^ m]) : lnot a ≡ lnot x [ZMOD 2 ^ m] := by
  rw [modEq_iff_testBit] at *
  intro i hi
  rw [testBit_lnot, testBit_lnot, hx i hi]

theorem ediv_modEq {c : ℕ} (h : x ≡ y [ZMOD 2 ^ (m + c)]) : x / 2 ^ c ≡ y / 2 ^ c [ZMOD 2 ^ m] := by
  rw [modEq_iff_testBit] at *
  intro i hi
  rw [testBit_ediv, testBit_ediv, h (i + c) (by omega)]

/-- A mask of `m` bits takes only the low `m` bits. -/
theorem land_eq_of_modEq (h : x ≡ y [ZMOD 2 ^ m]) (h0 : 0 ≤ a) (ha : a < 2 ^ m) :
    land x a = land y a := by
  have hmod : a % 2 ^ m = a := Int.emod_eq_of_lt h0 ha
  refine eq_of_testBit_eq fun i => ?_
  rw [testBit_land, testBit_land]
  by_cases hi : i < m
  · rw [modEq_iff_testBit.1 h i hi]
  · have hbit :
        a.testBit i = false := by rw [← hmod, testBit_emod, decide_eq_false hi, Bool.false_and]
    rw [hbit, Bool.and_false, Bool.and_false]

/-! ## Truncation -/

def cut : Bool → ℕ → ℤ → ℤ
  | false, w, x => x % 2 ^ w
  | true, 0, _ => 0
  | true, v + 1, x => if x.testBit v then lor (x % 2 ^ (v + 1)) (-(2 ^ (v + 1)))
    else x % 2 ^ (v + 1)

theorem testBit_cut_false (i : ℕ) : (cut false w x).testBit i = (decide (i < w) && x.testBit i) :=
  testBit_emod x w i

theorem testBit_cut_true (v i : ℕ) : (cut true (v + 1) x).testBit i = x.testBit (min i v) := by
  rw [cut]
  by_cases hi : i ≤ v
  · rw [min_eq_left hi]
    split_ifs
    · rw [testBit_lor, testBit_emod, testBit_neg_pow, decide_eq_true (by omega),
        decide_eq_false (by omega), Bool.true_and, Bool.or_false]
    · rw [testBit_emod, decide_eq_true (by omega), Bool.true_and]
  · rw [min_eq_right (not_le.1 hi).le]
    split_ifs with hv
    · rw [testBit_lor, testBit_neg_pow, decide_eq_true (show v + 1 ≤ i by omega), Bool.or_true, hv]
    · rw [testBit_emod, decide_eq_false (by omega), Bool.false_and, Bool.eq_false_iff.2 hv]

theorem cut_modEq (signed : Bool) (w : ℕ) (x : ℤ) : cut signed w x ≡ x [ZMOD 2 ^ w] := by
  refine modEq_iff_testBit.2 fun i hi => ?_
  cases signed with
  | false => rw [testBit_cut_false, decide_eq_true hi, Bool.true_and]
  | true =>
    cases w with
    | zero => exact absurd hi (Nat.not_lt_zero i)
    | succ v => rw [testBit_cut_true, min_eq_left (Nat.le_of_lt_succ hi)]

theorem cut_congr (h : x ≡ y [ZMOD 2 ^ w]) : cut signed w x = cut signed w y := by
  cases signed with
  | false => exact h
  | true =>
    cases w with
    | zero => rfl
    | succ v =>
      refine eq_of_testBit_eq fun i => ?_
      rw [testBit_cut_true, testBit_cut_true]
      exact modEq_iff_testBit.1 h _ (by omega)

/-- An integer of `w` bits. -/
def IsCut (signed : Bool) (w : ℕ) (x : ℤ) : Prop := cut signed w x = x

theorem isCut_cut (signed : Bool) (w : ℕ) (x : ℤ) : IsCut signed w (cut signed w x) :=
  cut_congr (cut_modEq signed w x)

theorem IsCut.eq_of_modEq (hx : IsCut signed w x) (hy : IsCut signed w y)
    (h : x ≡ y [ZMOD 2 ^ w]) : x = y := by
  rw [← hx, ← hy]
  exact cut_congr h

theorem isCut_false_iff : IsCut false w x ↔ 0 ≤ x ∧ x < 2 ^ w := by
  have hpos : (0 : ℤ) < 2 ^ w := by positivity
  constructor
  · intro h
    rw [← h]
    exact ⟨Int.emod_nonneg x hpos.ne', Int.emod_lt_of_pos x hpos⟩
  · intro h
    exact Int.emod_eq_of_lt h.1 h.2

theorem isCut_zero_iff (signed : Bool) : IsCut signed 0 x ↔ x = 0 := by
  cases signed with
  | false =>
    rw [isCut_false_iff]
    omega
  | true => exact eq_comm

theorem isCut_true_iff (v : ℕ) : IsCut true (v + 1) x ↔ Fits v x := by
  have hbits : IsCut true (v + 1) x ↔ ∀ i, x.testBit (min i v) = x.testBit i := by
    constructor
    · intro h i
      rw [← testBit_cut_true, h]
    · intro h
      refine eq_of_testBit_eq fun i => ?_
      rw [testBit_cut_true, h i]
  rw [hbits, fits_iff]
  constructor
  · intro h
    have hquot (i : ℕ) : (x / 2 ^ v).testBit i = x.testBit v := by
      rw [testBit_ediv, ← h (i + v), min_eq_right (by omega)]
    cases hv : x.testBit v with
    | false =>
      left
      refine eq_of_testBit_eq fun i => ?_
      rw [hquot, hv, testBit_zero]
    | true =>
      right
      refine eq_of_testBit_eq fun i => ?_
      rw [hquot, hv, testBit_neg_one]
  · intro h i
    rcases Nat.lt_or_ge i v with hi | hi
    · rw [min_eq_left hi.le]
    obtain ⟨j, rfl⟩ := Nat.exists_eq_add_of_le' hi
    rw [min_eq_right hi, ← testBit_ediv, ← Nat.zero_add v, ← testBit_ediv, Nat.zero_add]
    rcases h with h | h <;> rw [h]
    · rw [testBit_zero, testBit_zero]
    · rw [testBit_neg_one, testBit_neg_one]

theorem IsCut.mono {v : ℕ} (h : IsCut true v x) (hvw : v ≤ w) : IsCut true w x := by
  cases v with
  | zero =>
    rw [(isCut_zero_iff true).1 h]
    cases w with
    | zero => rfl
    | succ u => exact (isCut_true_iff u).2 ⟨by simp, by positivity⟩
  | succ v =>
    obtain ⟨u, rfl⟩ : ∃ u, w = u + 1 := ⟨w - 1, by omega⟩
    exact (isCut_true_iff u).2 (((isCut_true_iff v).1 h).mono (by omega))

theorem IsCut.of_false {v : ℕ} (h : IsCut false v x) (hvw : v < w) : IsCut true w x := by
  obtain ⟨u, rfl⟩ : ∃ u, w = u + 1 := ⟨w - 1, by omega⟩
  have hpow : (2 : ℤ) ^ v ≤ 2 ^ u := pow_le_pow_right₀ (by decide) (by omega)
  obtain ⟨h0, hlt⟩ := isCut_false_iff.1 h
  exact (isCut_true_iff u).2 ⟨by omega, by omega⟩

theorem isCut_zero (signed : Bool) (w : ℕ) : IsCut signed w 0 := by
  cases signed with
  | false => exact isCut_false_iff.2 ⟨le_rfl, by positivity⟩
  | true => exact ((isCut_zero_iff true).2 rfl).mono (Nat.zero_le w)

theorem cut_land (signed : Bool) (w : ℕ) (a b : ℤ) :
    cut signed w (land a b) = land (cut signed w a) (cut signed w b) := by
  refine eq_of_testBit_eq fun i => ?_
  cases signed with
  | false =>
    rw [testBit_land, testBit_cut_false, testBit_cut_false, testBit_cut_false, testBit_land]
    cases decide (i < w) <;> rfl
  | true =>
    cases w with
    | zero => rfl
    | succ v => rw [testBit_land, testBit_cut_true, testBit_cut_true,
      testBit_cut_true, testBit_land]

theorem cut_lor (signed : Bool) (w : ℕ) (a b : ℤ) :
    cut signed w (lor a b) = lor (cut signed w a) (cut signed w b) := by
  refine eq_of_testBit_eq fun i => ?_
  cases signed with
  | false =>
    rw [testBit_lor, testBit_cut_false, testBit_cut_false, testBit_cut_false, testBit_lor]
    cases decide (i < w) <;> rfl
  | true =>
    cases w with
    | zero => rfl
    | succ v => rw [testBit_lor, testBit_cut_true, testBit_cut_true, testBit_cut_true, testBit_lor]

theorem cut_lxor (signed : Bool) (w : ℕ) (a b : ℤ) :
    cut signed w (Int.xor a b) = Int.xor (cut signed w a) (cut signed w b) := by
  refine eq_of_testBit_eq fun i => ?_
  cases signed with
  | false =>
    rw [testBit_lxor, testBit_cut_false, testBit_cut_false, testBit_cut_false, testBit_lxor]
    cases decide (i < w) <;> simp
  | true =>
    cases w with
    | zero => rfl
    | succ v => rw [testBit_lxor, testBit_cut_true, testBit_cut_true,
      testBit_cut_true, testBit_lxor]

/-- Only of a positive width: in no bits at all, the complement of 0 is -1. -/
theorem cut_lnot (hw : 0 < w) (a : ℤ) : cut true w (lnot a) = lnot (cut true w a) := by
  obtain ⟨v, rfl⟩ : ∃ v, w = v + 1 := ⟨w - 1, by omega⟩
  refine eq_of_testBit_eq fun i => ?_
  rw [testBit_lnot, testBit_cut_true, testBit_cut_true, testBit_lnot]

end Truncation
