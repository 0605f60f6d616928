import Sbcl.Numbers.FloatRatio
import Sbcl.Printer.FlonumCorrect

/-!
# A ratio is rounded to the nearest float

* `roundExtraBits_eq` : the bits of the quotient that are rounded away, as a quotient and a
  remainder;
* `scaledShift` : the quotient has two or three bits more than the precision, or as many as the
  subnormal range leaves;
* `floatRatio_rounds` : the significand and the shift denote the nearest float, the even one of two.
-/

namespace Sbcl.Numbers

open Printer BinaryFloat Nat Int

/-! ## Rounding away bits -/

theorem logtest_natCast (a b : ℕ) : logtest a b = decide (a &&& b ≠ 0) := by
  unfold logtest
  rw [show logand (a : ℤ) b = ((a &&& b : ℕ) : ℤ) from rfl, decide_eq_decide]
  exact_mod_cast Iff.rfl

theorem logand_lognot_pred (x k : ℕ) : logand (x : ℤ) (lognot (2 ^ k - 1 : ℕ)) =
    (x / 2 ^ k * 2 ^ k : ℕ) := by
  rw [show logand (x : ℤ) (lognot (2 ^ k - 1 : ℕ)) = ((Nat.ldiff x (2 ^ k - 1) : ℕ) : ℤ) from rfl]
  congr 1
  refine Nat.eq_of_testBit_eq fun i => ?_
  rw [Nat.testBit_ldiff, Nat.testBit_two_pow_sub_one, Nat.testBit_mul_two_pow,
    Nat.testBit_div_two_pow]
  by_cases h : i < k
  · simp [h]
  · have hle : k ≤ i := not_lt.1 h
    simp [h, hle]

theorem logtest_mask (low k : ℕ) :
    (logtest low (2 ^ k : ℕ) && logtest low (3 * 2 ^ k - 1 : ℕ)) = true ↔
    2 ^ k ≤ low % (2 * 2 ^ k) ∧ (Odd (low / (2 * 2 ^ k)) ∨ 2 ^ k < low % (2 * 2 ^ k)) := by
  have hpos := Nat.two_pow_pos k
  have hrest := Nat.mod_lt low hpos
  have hmod : low % (2 * 2 ^ k) = low % 2 ^ k + 2 ^ k * (low.testBit k).toNat := by
    rw [Nat.mul_comm, mod_mul, toNat_testBit]
  have hbits : 3 * 2 ^ k - 1 = 2 ^ (k + 1) ||| (2 ^ k - 1) := by
    have hlt : 2 ^ k - 1 < 2 ^ (k + 1) := by
      rw [pow_succ]
      omega
    have h := two_pow_add_eq_or_of_lt hlt 1
    rw [Nat.mul_one] at h
    rw [← h, pow_succ]
    omega
  have hodd : Odd (low / (2 * 2 ^ k)) ↔ low.testBit (k + 1) = true := by
    rw [Nat.testBit_eq_decide_div_mod_eq, decide_eq_true_eq, ← Nat.odd_iff, pow_succ']
  rw [logtest_natCast, logtest_natCast, Bool.and_eq_true, decide_eq_true_eq,
    decide_eq_true_eq, hbits,
    Nat.and_or_distrib_left, Nat.and_two_pow, Nat.and_two_pow,
      Nat.and_two_pow_sub_one_eq_mod, hodd, hmod]
  cases low.testBit k with
  | false => simp [hrest]
  | true =>
    cases low.testBit (k + 1) with
    | true => simp
    | false =>
      rw [Bool.toNat_false, Bool.toNat_true, Nat.zero_mul, zero_or]
      constructor
      · rintro ⟨-, h⟩
        omega
      · rintro ⟨-, h | h⟩
        · exact absurd h Bool.false_ne_true
        · omega

theorem or_one (x : ℕ) : x ||| 1 = 2 * (x / 2) + 1 := by
  have hx := two_pow_add_eq_or_of_lt (show x % 2 < 2 ^ 1 by omega) (x / 2)
  have hone := two_pow_add_eq_or_of_lt (show 1 < 2 ^ 1 by omega) (x / 2)
  rw [pow_one] at hx hone
  have hbit : x % 2 ||| 1 = 1 := by
    rcases mod_two_eq_zero_or_one x with h | h
    · rw [h]
      rfl
    · rw [h]
      rfl
  conv_lhs => rw [← div_add_mod x 2, hx, Nat.or_assoc, hbit, ← hone]

theorem or_inexact (x k : ℕ) (inexact : Bool) :
    (x ||| inexact.toNat) / (2 * 2 ^ (k + 1)) = x / (2 * 2 ^ (k + 1)) ∧
      (2 ^ (k + 1) ≤ (x ||| inexact.toNat) % (2 * 2 ^ (k + 1)) ↔
        2 ^ (k + 1) ≤ x % (2 * 2 ^ (k + 1))) ∧
      (2 ^ (k + 1) ≤ x % (2 * 2 ^ (k + 1)) →
        (2 ^ (k + 1) < (x ||| inexact.toNat) % (2 * 2 ^ (k + 1)) ↔
        2 ^ (k + 1) < x % (2 * 2 ^ (k + 1)) ∨ inexact)) := by
  cases inexact with
  | false => simp
  | true =>
    have hdivision (b : ℕ) (hb : b < 2) :
      (2 * (x / 2) + b) / (2 * (2 * 2 ^ k)) = x / 2 / (2 * 2 ^ k) ∧
        (2 * (x / 2) + b) % (2 * (2 * 2 ^ k)) = 2 * (x / 2 % (2 * 2 ^ k)) + b := by
      rw [← Nat.div_div_eq_div_mul, mod_mul, show (2 * (x / 2) + b) / 2 = x / 2 by omega,
        show (2 * (x / 2) + b) % 2 = b by omega]
      exact ⟨rfl, by omega⟩
    have hx := hdivision (x % 2) (by omega)
    rw [div_add_mod] at hx
    have hone := hdivision 1 (by omega)
    rw [Bool.toNat_true, or_one, pow_succ, Nat.mul_comm (2 ^ k), hone.1, hone.2, hx.1, hx.2]
    refine ⟨rfl, by omega, fun h => ?_⟩
    have htrue : ((true : Bool) = true) = True := by simp
    rw [htrue, or_true, iff_true]
    omega

theorem roundExtraBits_eq (x k : ℕ) (inexact : Bool) : roundExtraBits x (k + 2 : ℕ) inexact =
    ((if 2 ^ (k + 1) ≤ x % (2 * 2 ^ (k + 1)) ∧
      (Odd (x / (2 * 2 ^ (k + 1))) ∨ 2 ^ (k + 1) < x % (2 * 2 ^ (k + 1)) ∨ inexact)
      then x / (2 * 2 ^ (k + 1)) + 1 else x / (2 * 2 ^ (k + 1))) * (2 * 2 ^ (k + 1)) : ℕ) := by
  have hpos := Nat.two_pow_pos (k + 1)
  have hmask : ash 1 (((k + 2 : ℕ) : ℤ) - 1) = (2 ^ (k + 1) : ℕ) := by
    rw [show ((k + 2 : ℕ) : ℤ) - 1 = ((k + 1 : ℕ) : ℤ) by push_cast; ring, ash_ofNat]
    push_cast
    ring
  have hlow : logior (x : ℤ) (if inexact then 1 else 0) = (x ||| inexact.toNat : ℕ) := by
    cases inexact <;> rfl
  have hthree : 3 * ((2 ^ (k + 1) : ℕ) : ℤ) - 1 = (3 * 2 ^ (k + 1) - 1 : ℕ) := by omega
  have htwo : 2 * ((2 ^ (k + 1) : ℕ) : ℤ) - 1 = (2 ^ (k + 2) - 1 : ℕ) := by
    rw [pow_succ 2 (k + 1)]
    omega
  have hclear (y : ℕ) : logand (y : ℤ) (lognot (2 ^ (k + 2) - 1 : ℕ)) =
      (y / (2 * 2 ^ (k + 1)) * (2 * 2 ^ (k + 1)) : ℕ) := by
    rw [logand_lognot_pred, pow_succ']
  obtain ⟨hquotient, hhalf, hmore⟩ := or_inexact x k inexact
  have htest := logtest_mask (x ||| inexact.toNat) (k + 1)
  rw [hquotient, hhalf] at htest
  have htest : (logtest (x ||| inexact.toNat : ℕ) (2 ^ (k + 1) : ℕ) &&
    logtest (x ||| inexact.toNat : ℕ) (3 * 2 ^ (k + 1) - 1 : ℕ)) =
      true ↔ 2 ^ (k + 1) ≤ x % (2 * 2 ^ (k + 1)) ∧
        (Odd (x / (2 * 2 ^ (k + 1))) ∨ 2 ^ (k + 1) < x % (2 * 2 ^ (k + 1)) ∨ inexact) := by
    rw [htest]
    exact and_congr_right fun hle => or_congr Iff.rfl (hmore hle)
  unfold roundExtraBits
  dsimp only
  rw [hmask, hlow, hthree, htwo]
  by_cases h : (logtest (x ||| inexact.toNat : ℕ) (2 ^ (k + 1) : ℕ) &&
      logtest (x ||| inexact.toNat : ℕ) (3 * 2 ^ (k + 1) - 1 : ℕ)) = true
  · -- With a half more the quotient is the next one.
    have hup := htest.1 h
    have hdiv : (x + 2 ^ (k + 1)) / (2 * 2 ^ (k + 1)) = x / (2 * 2 ^ (k + 1)) + 1 := by
      have hlt := Nat.mod_lt x (show 0 < 2 * 2 ^ (k + 1) by omega)
      have hx := div_add_mod' x (2 * 2 ^ (k + 1))
      refine Nat.div_eq_of_lt_le ?_ ?_
      · rw [Nat.succ_mul]
        omega
      · rw [Nat.succ_mul, Nat.succ_mul]
        omega
    rw [if_pos h, if_pos hup, ← Nat.cast_add, hclear, hdiv]
  · rw [if_neg h, if_neg (mt htest.2 h), hclear]

/-- The integer part of a quotient with a shift, and whether it is exact. -/
def IsQuotient (y : ℚ) (x : ℕ) (inexact : Bool) : Prop :=
  (x : ℚ) ≤ y ∧ y < x + 1 ∧ (inexact = true ↔ (x : ℚ) < y)

theorem isQuotient_div {n d : ℕ} (hd : 0 < d) :
    IsQuotient (n / d) (n / d) (decide (n % d ≠ 0)) := by
  have hd' : (0 : ℚ) < d := by exact_mod_cast hd
  have hdiv : (n : ℚ) / d = (n / d : ℕ) + (n % d : ℕ) / d := by
    have h : ((n / d : ℕ) : ℚ) * d + (n % d : ℕ) = n := by exact_mod_cast div_add_mod' n d
    rw [← h]
    field_simp
  have hrest : ((n % d : ℕ) : ℚ) / d < 1 := (div_lt_one hd').2 (by exact_mod_cast Nat.mod_lt n hd)
  rw [IsQuotient, hdiv, decide_eq_true_eq]
  refine ⟨le_add_of_nonneg_right (by positivity), by linarith, ?_⟩
  rw [lt_add_iff_pos_right, div_pos_iff_of_pos_right hd', Nat.cast_pos, Nat.pos_iff_ne_zero]

theorem isQuotient_shift {n d s : ℕ} (hd : 0 < d) :
    IsQuotient (n / d / 2 ^ s) (n / 2 ^ s / d)
      (decide (n % 2 ^ s ≠ 0) || decide (n / 2 ^ s % d ≠ 0)) := by
  have h := isQuotient_div (n := n) (Nat.mul_pos (Nat.two_pow_pos s) hd)
  have hmod : (n % (2 ^ s * d) ≠ 0) ↔ n % 2 ^ s ≠ 0 ∨ n / 2 ^ s % d ≠ 0 := by
    rw [mod_mul, Ne, Nat.add_eq_zero_iff, Nat.mul_eq_zero]
    have := (Nat.two_pow_pos s).ne'
    tauto
  have hvalue : (n : ℚ) / (2 ^ s * d : ℕ) = n / d / 2 ^ s := by
    push_cast
    rw [div_div, mul_comm]
  have hdecide :
      decide (n % (2 ^ s * d) ≠ 0) = (decide (n % 2 ^ s ≠ 0) || decide (n / 2 ^ s % d ≠ 0)) := by
    rw [← Bool.decide_or]
    exact decide_eq_decide.2 hmod
  rw [hvalue, ← Nat.div_div_eq_div_mul, hdecide] at h
  exact h

/-! ## The nearest float -/

variable (type : FloatType)

theorem two_zpow_natCast (k : ℕ) (e : ℤ) : (2 : ℚ) ^ ((k : ℤ) + e) = 2 ^ k * 2 ^ e := by
  rw [zpow_add₀ two_ne_zero, zpow_natCast]

/-- From the integer part of the quotient to the nearest float: what is rounded away is what is
below the last place of the float. -/
theorem roundExtraBits_rounds {v : ℚ} {x : ℕ} {inexact : Bool} {shift : ℤ}
    (hquotient : IsQuotient (v * 2 ^ (-shift)) x inexact)
    (hextra : 2 ≤ max (x.size : ℤ) (1 - type.bias - shift) - type.digits)
    (hpos : 1 - (type.bias : ℤ) < x.size + shift → x ≠ 0) :
    ∃ b, RoundsTo type.format v b ∧
      (roundExtraBits x (max (x.size : ℤ) (1 - type.bias - shift) - type.digits) inexact : ℚ) *
        2 ^ shift = type.format.value b ∧
      ∃ b', type.format.value b' =
        (roundExtraBits x (max (x.size : ℤ) (1 - type.bias - shift) - type.digits)
          inexact : ℚ) := by
  obtain ⟨k, hk⟩ : ∃ k : ℕ, max (x.size : ℤ) (1 - type.bias - shift) - type.digits =
      (k + 2 : ℕ) := by
    obtain ⟨k, hk⟩ := eq_ofNat_of_zero_le (sub_nonneg.2 hextra)
    exact ⟨k, by push_cast; omega⟩
  have hminimum : type.format.minExponent = 1 - (type.bias : ℤ) - type.digits := by
    cases type <;> rfl
  obtain ⟨j, hj⟩ : ∃ j : ℕ, type.format.minExponent + j = (k + 2 : ℕ) + shift := by
    obtain ⟨j, hj⟩ :=
      eq_ofNat_of_zero_le (show 0 ≤ (k + 2 : ℕ) + shift - type.format.minExponent by omega)
    exact ⟨j, by omega⟩
  obtain ⟨hle, hlt, hinexact⟩ := hquotient
  have hshift : (0 : ℚ) < 2 ^ shift := zpow_pos two_pos _
  set y := v * 2 ^ (-shift) with hy
  have hv : v = y * 2 ^ shift := by rw [hy, mul_assoc, ← zpow_add₀ two_ne_zero, neg_add_cancel,
    zpow_zero, mul_one]
  have hdigits := format_digits type
  rw [hk, roundExtraBits_eq]
  set Q := x / (2 * 2 ^ (k + 1)) with hQ
  set R := x % (2 * 2 ^ (k + 1)) with hR
  have hpow : (2 : ℚ) ^ (k + 2) = 2 * (2 ^ (k + 1) : ℕ) := by
    push_cast
    ring
  have hround : RoundsEven (v / 2 ^ (type.format.minExponent + j))
      (if 2 ^ (k + 1) ≤ R ∧ (Odd Q ∨ 2 ^ (k + 1) < R ∨ 0 < y - x) then Q + 1 else Q) := by
    refine roundsEven_quotient (Nat.two_pow_pos _) (Nat.mod_lt _ (by positivity)) (by linarith)
      (by linarith) ?_
    have hx : ((Q * (2 * 2 ^ (k + 1)) + R : ℕ) : ℚ) = x := by
      exact_mod_cast div_add_mod' x (2 * 2 ^ (k + 1))
    push_cast at hx
    rw [hj, two_zpow_natCast, hv, mul_div_mul_right _ _ hshift.ne', hpow]
    push_cast
    rw [div_mul_cancel₀ _ (by positivity)]
    linarith
  have hsize : x < 2 ^ x.size := lt_size_self x
  have hupper : v < 2 ^ type.format.digits * 2 ^ (type.format.minExponent + j) := by
    have hcast : (x : ℚ) + 1 ≤ 2 ^ x.size := by exact_mod_cast hsize
    rw [hdigits, ← two_zpow_natCast, hv]
    calc y * 2 ^ shift < 2 ^ x.size * 2 ^ shift := mul_lt_mul_of_pos_right (by linarith) hshift
      _ = 2 ^ ((x.size : ℤ) + shift) := (two_zpow_natCast _ _).symm
      _ ≤ 2 ^ ((type.digits : ℤ) + (type.format.minExponent + j)) :=
        zpow_le_zpow_right₀ (by norm_num) (by omega)
  have hlower : j = 0 ∨ 2 ^ (type.format.digits - 1) * 2 ^ (type.format.minExponent + j) ≤ v := by
    by_cases hlarge : 1 - (type.bias : ℤ) < x.size + shift
    · right
      have hone := type.format.one_lt
      have hfirst : 2 ^ (x.size - 1) ≤ x := lt_size.1 (by omega)
      have hcast : (2 : ℚ) ^ (x.size - 1) ≤ x := by exact_mod_cast hfirst
      rw [← two_zpow_natCast, hv]
      calc (2 : ℚ) ^ (((type.format.digits - 1 : ℕ) : ℤ) + (type.format.minExponent + j))
          ≤ 2 ^ (((x.size - 1 : ℕ) : ℤ) + shift) := zpow_le_zpow_right₀ (by norm_num) (by omega)
        _ = 2 ^ (x.size - 1) * 2 ^ shift := two_zpow_natCast _ _
        _ ≤ y * 2 ^ shift := mul_le_mul_of_nonneg_right (hcast.trans hle) hshift.le
    · left
      omega
  obtain ⟨hq, hvalue, hrounds⟩ := roundsTo_of_roundsEven hlower hupper hround
  have hmore : (0 < y - x) ↔ inexact = true := by rw [sub_pos, hinexact]
  simp only [hmore] at hq hvalue hrounds
  refine ⟨_, hrounds, ?_, ?_⟩
  · rw [hvalue, hj, two_zpow_natCast, hpow]
    push_cast
    ring
  obtain ⟨i, hi⟩ : ∃ i : ℕ, type.format.minExponent + i = (k + 2 : ℕ) := by
    obtain ⟨i, hi⟩ := eq_ofNat_of_zero_le (show 0 ≤ (k + 2 : ℕ) - type.format.minExponent by
      rw [hminimum]
      omega)
    exact ⟨i, by omega⟩
  obtain ⟨b', hb'⟩ := exists_value type.format i hq
  refine ⟨b', ?_⟩
  rw [hb', hi, zpow_natCast, hpow]
  push_cast
  rfl

theorem isQuotient_ash (n : ℕ) {d : ℕ} (hd : 0 < d) (shift : ℤ) :
    ∃ x : ℕ, (ash n (-shift)).tdiv d = x ∧ IsQuotient (n / d * 2 ^ (-shift)) x
      ((if shift < 0 then false else decide (ldb shift.toNat 0 n ≠ 0)) ||
        decide ((ash n (-shift)).tmod d ≠ 0)) := by
  rcases Int.lt_or_le shift 0 with hneg | hpos
  · obtain ⟨m, hm⟩ := eq_ofNat_of_zero_le (show 0 ≤ -shift by omega)
    have hash : ash n (-shift) = (n * 2 ^ m : ℕ) := by
      rw [hm, ash_ofNat]
      push_cast
      rfl
    have hvalue : (n : ℚ) / d * 2 ^ (-shift) = (n * 2 ^ m : ℕ) / d := by
      rw [hm, zpow_natCast]
      push_cast
      ring
    have hmod : decide (((n * 2 ^ m % d : ℕ) : ℤ) ≠ 0) = decide (n * 2 ^ m % d ≠ 0) := by
      rw [decide_eq_decide]
      exact_mod_cast Iff.rfl
    rw [hash, hvalue, if_pos hneg, Bool.false_or]
    exact ⟨n * 2 ^ m / d, rfl, hmod ▸ isQuotient_div hd⟩
  · obtain ⟨s, rfl⟩ := eq_ofNat_of_zero_le hpos
    have hash : ash n (-(s : ℤ)) = (n / 2 ^ s : ℕ) := by
      rw [ash_neg]
      push_cast
      rfl
    have hvalue : (n : ℚ) / d * 2 ^ (-(s : ℤ)) = n / d / 2 ^ s := by
      rw [zpow_neg, zpow_natCast, div_eq_mul_inv _ ((2 : ℚ) ^ s)]
    have hldb : ldb (s : ℤ).toNat 0 (n : ℤ) = (n % 2 ^ s : ℕ) := by
      rw [ldb, Nat.cast_zero, neg_zero, show ash (n : ℤ) 0 = n from by simpa using ash_ofNat n 0,
        Int.toNat_natCast]
      rfl
    have hmod (a : ℕ) : decide ((a : ℤ) ≠ 0) = decide (a ≠ 0) := by
      rw [decide_eq_decide]
      exact_mod_cast Iff.rfl
    rw [hash, hvalue, hldb, if_neg (not_lt.2 hpos), hmod]
    refine ⟨n / 2 ^ s / d, rfl, ?_⟩
    rw [show ((n / 2 ^ s : ℕ) : ℤ).tmod d = ((n / 2 ^ s % d : ℕ) : ℤ) from rfl, hmod]
    exact isQuotient_shift hd

theorem size_quotient {n d x D : ℕ} (hn : 0 < n) (hd : 0 < d) {shift : ℤ}
    (hshift : shift = (n.size : ℤ) - d.size - D - 2)
    (h : (n : ℚ) / d * 2 ^ (-shift) < x + 1) : D + 2 ≤ x.size := by
  have hd' : (0 : ℚ) < d := by exact_mod_cast hd
  have hsize := size_pos.2 hn
  have hfirst : (2 : ℚ) ^ ((n.size : ℤ) - 1) ≤ n := by
    have hle : 2 ^ (n.size - 1) ≤ n := lt_size.1 (by omega)
    rw [show (n.size : ℤ) - 1 = ((n.size - 1 : ℕ) : ℤ) by omega, zpow_natCast]
    exact_mod_cast hle
  have hlast : (d : ℚ) < 2 ^ (d.size : ℤ) := by
    rw [zpow_natCast]
    exact_mod_cast lt_size_self d
  have hlower : (2 : ℚ) ^ (D + 1) < x + 1 := by
    refine lt_of_le_of_lt ?_ h
    rw [div_mul_eq_mul_div, le_div_iff₀ hd', ← zpow_natCast]
    calc (2 : ℚ) ^ ((D + 1 : ℕ) : ℤ) * d ≤ 2 ^ ((D + 1 : ℕ) : ℤ) * 2 ^ (d.size : ℤ) :=
          mul_le_mul_of_nonneg_left hlast.le (zpow_pos two_pos _).le
      _ = 2 ^ ((n.size : ℤ) - 1) * 2 ^ (-shift) := by
          rw [← zpow_add₀ two_ne_zero, ← zpow_add₀ two_ne_zero, hshift]
          congr 1
          push_cast
          ring
      _ ≤ n * 2 ^ (-shift) := mul_le_mul_of_nonneg_right hfirst (zpow_pos two_pos _).le
  have hle : 2 ^ (D + 1) ≤ x := le_of_lt_succ (by exact_mod_cast hlower)
  exact lt_size.2 hle

/-- The result stands for the nearest float: a quotient of two floats that are the integers, which
is rounded once; or a significand that is a float, times a power of two, which is a float too unless
it is above the largest. -/
def RatioFloat.Denotes (num den : ℤ) : RatioFloat → Prop
  | .quotient n d => n = num ∧ d = den ∧ (∃ b, type.format.value b = |n|) ∧ ∃ b,
  type.format.value b = |d|
  | .scaled plusp x shift => plusp = decide (0 < num) ∧ (∃ b, type.format.value b = x) ∧
      ∃ b, RoundsTo type.format (|num| / den) b ∧ x * 2 ^ shift = type.format.value b ∧
        (b < type.infinity ∨ type.format.value type.infinity ≤ x * 2 ^ shift)

theorem exists_value_of_exactly {n : ℤ} (h : exactlyFloatInteger type n = true) :
    ∃ b, type.format.value b = (|n| : ℤ) := by
  unfold exactlyFloatInteger at h
  rw [decide_eq_true_eq] at h
  have hq : n.natAbs ≤ 2 ^ type.format.digits := by
    rw [format_digits]
    zify
    exact abs_le.2 h
  obtain ⟨i, hi⟩ : ∃ i : ℕ, type.format.minExponent + i = 0 := by
    cases type with
    | singleFloat => exact ⟨149, rfl⟩
    | doubleFloat => exact ⟨1074, rfl⟩
  obtain ⟨b, hb⟩ := exists_value type.format i hq
  refine ⟨b, ?_⟩
  rw [hb, hi, zpow_zero, mul_one, abs_eq_natAbs]
  rfl

/-- The float of a ratio is the nearest one to it, and the even one of two. -/
theorem floatRatio_rounds (num den : ℤ) (hnum : num ≠ 0) (hden : 0 < den) :
    (floatRatio type num den).Denotes type num den := by
  unfold floatRatio
  split
  · rename_i h
    rw [Bool.and_eq_true] at h
    exact ⟨rfl, rfl, exists_value_of_exactly type h.1, exists_value_of_exactly type h.2⟩
  obtain ⟨d, rfl⟩ := eq_ofNat_of_zero_le hden.le
  have hd : 0 < d := by exact_mod_cast hden
  have hn : 0 < num.natAbs := natAbs_pos.2 hnum
  have habs : (if decide (0 < num) then num else -num) = (num.natAbs : ℤ) := by
    split
    · rename_i h
      exact (natAbs_of_nonneg (of_decide_eq_true h).le).symm
    · rename_i h
      rw [ofNat_natAbs_of_nonpos (not_lt.1 (mt decide_eq_true h))]
  have hvalue : ((|num| : ℤ) : ℚ) / ((d : ℤ) : ℚ) = (num.natAbs : ℚ) / d := by
    rw [abs_eq_natAbs]
    rfl
  dsimp only
  rw [habs, integerLength_natCast, integerLength_natCast]
  generalize hshift :
    max ((num.natAbs.size : ℤ) - d.size) (1 - (type.bias : ℤ) - 1) - type.digits - 2 = shift
  obtain ⟨x, hx, hquotient⟩ := isQuotient_ash num.natAbs hd shift
  rw [hx, integerLength_natCast]
  -- The quotient is long enough, or in the subnormal range.
  have hlong : 2 ≤ max (x.size : ℤ) (1 - type.bias - shift) - type.digits ∧
      (1 - (type.bias : ℤ) < x.size + shift → x ≠ 0) := by
    rcases le_total (1 - (type.bias : ℤ) - 1) ((num.natAbs.size : ℤ) - d.size) with hle | hle
    · have hsize :=
        size_quotient hn hd (D := type.digits) (by rw [← hshift, max_eq_left hle]) hquotient.2.1
      refine ⟨by omega, fun _ h0 => ?_⟩
      rw [h0, size_zero] at hsize
      omega
    · rw [max_eq_right hle] at hshift
      refine ⟨by omega, fun hlarge h0 => ?_⟩
      rw [h0, size_zero] at hlarge
      omega
  obtain ⟨b, hrounds, hb, hcoerce⟩ := roundExtraBits_rounds type hquotient hlong.1 hlong.2
  refine ⟨rfl, hcoerce, b, ?_, hb, ?_⟩
  · rw [hvalue]
    exact hrounds
  · rw [hb]
    exact (Nat.lt_or_ge b type.infinity).imp_right fun h =>
      (value_strictMono type.format).monotone h

theorem floatRatio_rounds_third :
    (floatRatio .doubleFloat (-10 ^ 30) 3).Denotes .doubleFloat (-10 ^ 30) 3 :=
  floatRatio_rounds .doubleFloat (-10 ^ 30) 3 (by decide) (by decide)

end Sbcl.Numbers
