import Mathlib.Data.Nat.ModEq
import Mathlib.Tactic.FieldSimp
import Mathlib.Tactic.LinearCombination
import Mathlib.Tactic.Linarith
import Mathlib.Tactic.Positivity
import Mathlib.Tactic.Ring

/-!
# Binary floating point numbers and their rounding intervals

The positive numbers of a format in their order: the number `b` has its exponent field above the
`digits - 1` bits of its fraction.

* `significand`, `exponent`, `value` : the number that the bits stand for;
* `value_succ`, `value_strictMono` : the next number is one unit of the last place above;
* `InRoundingInterval` : between the middles to the two neighbours, with the ends where the
  significand is even;
* `RoundsTo` : the nearest number, the even one of two that are equally near; `roundsTo_iff` : a
  rational in the interval of a number is rounded to it and to no other;
* `RoundsEven` : a rational rounded to a natural number; `roundsTo_of_roundsEven` : in units of the
  last place this is the rounding to a number.
-/

namespace BinaryFloat

/-- The size of the significand, and the exponent of the smallest number. -/
structure Format where
  digits : ℕ
  one_lt : 1 < digits
  minExponent : ℤ

/-- Below the end of an interval, which is included or not. -/
def Below (included : Bool) (x y : ℚ) : Prop := if included then x ≤ y else x < y

variable {F : Format} {b : ℕ} {x y z : ℚ} {ok : Bool}

theorem Below.le (h : Below ok x y) : x ≤ y := by
  unfold Below at h
  split at h
  · exact h
  · exact h.le

theorem below_of_lt (h : x < y) : Below ok x y := by
  unfold Below
  split
  · exact h.le
  · exact h

theorem Below.trans_le (h : Below ok x y) (h' : y ≤ z) : Below ok x z := by
  cases ok with
  | false => exact lt_of_lt_of_le h h'
  | true => exact le_trans h h'

theorem Below.le_trans (h : x ≤ y) (h' : Below ok y z) : Below ok x z := by
  cases ok with
  | false => exact lt_of_le_of_lt h h'
  | true => exact LE.le.trans h h'

theorem not_below (h : ¬Below ok x y) : y ≤ x := by
  by_contra hlt
  exact h (below_of_lt (not_le.1 hlt))

theorem below_iff_of_sub {c x' y' : ℚ} (hc : 0 < c) (h : y' - x' = (y - x) * c) : Below ok x y ↔
    Below ok x' y' := by
  have hle : x ≤ y ↔ x' ≤ y' := by
    rw [← sub_nonneg, ← sub_nonneg (a := y'), h]
    exact (mul_nonneg_iff_of_pos_right hc).symm
  have hlt : x < y ↔ x' < y' := by
    rw [← sub_pos, ← sub_pos (a := y'), h]
    exact (mul_pos_iff_of_pos_right hc).symm
  unfold Below
  split
  · exact hle
  · exact hlt

theorem below_mul {c : ℚ} (hc : 0 < c) : Below ok (x * c) (y * c) ↔ Below ok x y :=
  (below_iff_of_sub hc (sub_mul y x c).symm).symm

/-! ## Numbers -/

namespace Format

variable (F)

def fraction (b : ℕ) : ℕ := b % 2 ^ (F.digits - 1)

def field (b : ℕ) : ℕ := b / 2 ^ (F.digits - 1)

def significand (b : ℕ) : ℕ :=
  if F.field b = 0 then F.fraction b else 2 ^ (F.digits - 1) + F.fraction b

def exponent (b : ℕ) : ℤ := F.minExponent + (F.field b - 1 : ℕ)

/-- The unit of the last place. -/
def ulp (b : ℕ) : ℚ := 2 ^ F.exponent b

def value (b : ℕ) : ℚ := F.significand b * F.ulp b

end Format

theorem ulp_pos (F : Format) (b : ℕ) : 0 < F.ulp b := zpow_pos two_pos _

theorem field_fraction (F : Format) (b : ℕ) : F.field b * 2 ^ (F.digits - 1) + F.fraction b = b :=
  Nat.div_add_mod' b _

theorem fraction_lt (F : Format) (b : ℕ) : F.fraction b < 2 ^ (F.digits - 1) :=
  Nat.mod_lt b (Nat.two_pow_pos _)

theorem field_eq {f e : ℕ} (hf : f < 2 ^ (F.digits - 1)) :
    F.field (e * 2 ^ (F.digits - 1) + f) = e := by
  unfold Format.field
  rw [Nat.add_comm, Nat.add_mul_div_right _ _ (Nat.two_pow_pos _),
    Nat.div_eq_of_lt hf, Nat.zero_add]

theorem fraction_eq {f e : ℕ} (hf : f < 2 ^ (F.digits - 1)) :
    F.fraction (e * 2 ^ (F.digits - 1) + f) = f := by
  unfold Format.fraction
  rw [Nat.add_comm, Nat.add_mul_mod_self_right, Nat.mod_eq_of_lt hf]

theorem succ_cases (F : Format) (b : ℕ) :
    (F.field (b + 1) = F.field b ∧ F.fraction (b + 1) = F.fraction b + 1) ∨
      (F.field (b + 1) = F.field b + 1 ∧ F.fraction (b + 1) = 0 ∧
        F.fraction b + 1 = 2 ^ (F.digits - 1)) := by
  have hb := field_fraction F b
  rcases Nat.lt_or_ge (F.fraction b + 1) (2 ^ (F.digits - 1)) with hlt | hge
  · left
    rw [show b + 1 = F.field b * 2 ^ (F.digits - 1) + (F.fraction b + 1) by omega, field_eq hlt,
      fraction_eq hlt]
    exact ⟨rfl, rfl⟩
  right
  have hlast : F.fraction b + 1 = 2 ^ (F.digits - 1) := le_antisymm (fraction_lt F b) hge
  have hnext : b + 1 = (F.field b + 1) * 2 ^ (F.digits - 1) + 0 := by
    rw [Nat.add_mul]
    omega
  rw [hnext, field_eq (Nat.two_pow_pos _), fraction_eq (Nat.two_pow_pos _)]
  exact ⟨rfl, rfl, hlast⟩

theorem value_succ (F : Format) (b : ℕ) : F.value (b + 1) = F.value b + F.ulp b := by
  unfold Format.value Format.ulp Format.significand Format.exponent
  rcases succ_cases F b with ⟨hfield, hfraction⟩ | ⟨hfield, hfraction, hlast⟩
  · rw [hfield, hfraction]
    split
    · push_cast
      ring
    · push_cast
      ring
  · have hcast : (F.fraction b : ℚ) + 1 = 2 ^ (F.digits - 1) := by exact_mod_cast hlast
    rw [hfield, hfraction, if_neg (Nat.succ_ne_zero _), Nat.add_sub_cancel]
    split
    · rename_i h0
      rw [h0]
      push_cast
      linear_combination (-(2 : ℚ) ^ (F.minExponent + (0 : ℕ))) * hcast
    rename_i h0
    obtain ⟨k, hk⟩ := Nat.exists_eq_succ_of_ne_zero h0
    rw [hk, Nat.succ_eq_add_one, Nat.add_sub_cancel, Nat.cast_succ, ← add_assoc,
      zpow_add_one₀ two_ne_zero]
    push_cast
    linear_combination (-(2 : ℚ) ^ (F.minExponent + (k : ℤ))) * hcast

theorem value_strictMono (F : Format) : StrictMono F.value :=
  strictMono_nat_of_lt_succ fun b => by
    rw [value_succ]
    exact lt_add_of_pos_right _ (ulp_pos F b)

/-- A number is even if and only if its significand is. -/
theorem even_significand (F : Format) (b : ℕ) : Even (F.significand b) ↔ Even b := by
  have hpow : Even (2 ^ (F.digits - 1)) := (even_two).pow_of_ne_zero (by have := F.one_lt; omega)
  have hb := field_fraction F b
  have hfraction : Even b ↔ Even (F.fraction b) := by
    conv_lhs => rw [← hb]
    rw [Nat.even_add, iff_true_left (hpow.mul_left _)]
  unfold Format.significand
  rw [hfraction]
  split
  · rfl
  · rw [Nat.even_add, iff_true_left hpow]

/-! ## Rounding -/

/-- The numbers that are nearer than the neighbours of a number above zero. -/
def InRoundingInterval (F : Format) (b : ℕ) (x : ℚ) : Prop :=
  Below (F.significand b % 2 = 0) ((F.value (b - 1) + F.value b) / 2) x ∧
    Below (F.significand b % 2 = 0) x ((F.value b + F.value (b + 1)) / 2)

/-- The number is nearer than any other, or as near and even. -/
def RoundsTo (F : Format) (x : ℚ) (b : ℕ) : Prop :=
  ∀ b', b' ≠ b → |x - F.value b| < |x - F.value b'| ∨
    (|x - F.value b| = |x - F.value b'| ∧ Even (F.significand b))

theorem value_pred (F : Format) (hb : 0 < b) : F.value b = F.value (b - 1) + F.ulp (b - 1) := by
  rw [← value_succ, Nat.sub_add_cancel hb]

theorem inRoundingInterval_iff (hb : 0 < b) : InRoundingInterval F b x ↔
    Below (F.significand b % 2 = 0) (F.value b - F.ulp (b - 1) / 2) x ∧
      Below (F.significand b % 2 = 0) x (F.value b + F.ulp b / 2) := by
  have hlow : F.value b - F.ulp (b - 1) / 2 = (F.value (b - 1) + F.value b) / 2 := by
    rw [value_pred F hb]
    ring
  have hhigh : F.value b + F.ulp b / 2 = (F.value b + F.value (b + 1)) / 2 := by
    rw [value_succ]
    ring
  rw [hlow, hhigh]
  rfl

theorem inRoundingInterval_of_narrow (hb : 0 < b) {low high : ℚ} (h : Below ok (F.value b - low) x)
    (h' : Below ok x (F.value b + high))
    (hok : ok = decide (F.significand b % 2 = 0) ∨ (low < F.ulp (b - 1) / 2 ∧ high < F.ulp b / 2))
    (hlow : low ≤ F.ulp (b - 1) / 2) (hhigh : high ≤ F.ulp b / 2) : InRoundingInterval F b x := by
  rw [inRoundingInterval_iff hb]
  rcases hok with rfl | ⟨hlow, hhigh⟩
  · exact ⟨Below.le_trans (by linarith) h, h'.trans_le (by linarith)⟩
  · have hx := h.le
    have hx' := h'.le
    exact ⟨below_of_lt (by linarith), below_of_lt (by linarith)⟩

theorem inRoundingInterval_of_dist (hb : 0 < b) (h : |x - F.value b| < F.ulp (b - 1) / 2)
    (h' : |x - F.value b| < F.ulp b / 2) : InRoundingInterval F b x := by
  rw [inRoundingInterval_iff hb]
  have hlow := (abs_lt.1 h).1
  have hhigh := (abs_lt.1 h').2
  exact ⟨below_of_lt (by linarith), below_of_lt (by linarith)⟩

theorem below_even (F : Format) (b : ℕ) (x y : ℚ) :
    Below (F.significand b % 2 = 0) x y ↔ x < y ∨ (x = y ∧ Even (F.significand b)) := by
  by_cases h : F.significand b % 2 = 0
  · rw [decide_eq_true h, and_iff_left (Nat.even_iff.2 h)]
    exact le_iff_lt_or_eq
  · rw [decide_eq_false h, iff_false_intro fun heven => h (Nat.even_iff.1 heven),
      and_false, or_false]
    exact Iff.rfl

theorem dist_lt_left {u w x : ℚ} (h : u < w) : |x - u| < |x - w| ↔ x < (u + w) / 2 := by
  constructor
  · intro hlt
    rcases abs_cases (x - u) with hu | hu <;> rcases abs_cases (x - w) with hw | hw <;> linarith
  · intro hlt
    rcases abs_cases (x - u) with hu | hu <;> rcases abs_cases (x - w) with hw | hw <;> linarith

theorem dist_lt_right {u w x : ℚ} (h : u < w) : |x - w| < |x - u| ↔ (u + w) / 2 < x := by
  constructor
  · intro hlt
    rcases abs_cases (x - u) with hu | hu <;> rcases abs_cases (x - w) with hw | hw <;> linarith
  · intro hlt
    rcases abs_cases (x - u) with hu | hu <;> rcases abs_cases (x - w) with hw | hw <;> linarith

theorem eq_middle {u w x : ℚ} (h : u < w) (heq : |x - u| = |x - w|) : x = (u + w) / 2 := by
  refine le_antisymm (not_lt.1 fun hx => ?_) (not_lt.1 fun hx => ?_)
  · exact ((dist_lt_right h).2 hx).ne' heq
  · exact ((dist_lt_left h).2 hx).ne heq

theorem dist_eq {u w x : ℚ} (h : u < w) (hx : x = (u + w) / 2) : |x - u| = |x - w| :=
  le_antisymm (not_lt.1 fun hlt => ((dist_lt_right h).1 hlt).ne' hx) (not_lt.1 fun hlt =>
    ((dist_lt_left h).1 hlt).ne hx)

theorem roundsTo_of_inRoundingInterval {x : ℚ} (hb : 0 < b) (h : InRoundingInterval F b x) :
    RoundsTo F x b := by
  obtain ⟨hlow, hhigh⟩ := h
  intro b' hne
  rcases Nat.lt_or_gt_of_ne hne with hlt | hgt
  · have hvalue := value_strictMono F hlt
    have hle := (value_strictMono F).monotone (show b' ≤ b - 1 by omega)
    have hbelow : Below (F.significand b % 2 = 0) ((F.value b' + F.value b) / 2) x :=
      Below.le_trans (by linarith) hlow
    rcases (below_even F b _ _).1 hbelow with hx | ⟨hx, heven⟩
    · exact .inl ((dist_lt_right hvalue).2 hx)
    · exact .inr ⟨(dist_eq hvalue hx.symm).symm, heven⟩
  · have hvalue := value_strictMono F hgt
    have hle := (value_strictMono F).monotone (show b + 1 ≤ b' from hgt)
    have hbelow : Below (F.significand b % 2 = 0) x ((F.value b + F.value b') / 2) :=
      hhigh.trans_le (by linarith)
    rcases (below_even F b _ _).1 hbelow with hx | ⟨hx, heven⟩
    · exact .inl ((dist_lt_left hvalue).2 hx)
    · exact .inr ⟨dist_eq hvalue hx, heven⟩

theorem RoundsTo.eq {x : ℚ} {b b' : ℕ} (h : RoundsTo F x b) (h' : RoundsTo F x b') : b = b' := by
  wlog hlt : b < b' generalizing b b'
  · rcases Nat.lt_or_eq_of_le (not_lt.1 hlt) with hgt | heq
    · exact (this h' h hgt).symm
    · exact heq.symm
  exfalso
  have hdist : |x - F.value b| = |x - F.value b'| ∧ Even b ∧ Even b' := by
    rcases h b' hlt.ne' with hb | ⟨hb, heven⟩
    · rcases h' b hlt.ne with hb' | ⟨hb', -⟩
      · exact absurd (hb.trans hb') (lt_irrefl _)
      · exact absurd hb' hb.ne'
    · rcases h' b hlt.ne with hb' | ⟨-, heven'⟩
      · exact absurd hb hb'.ne'
      · exact ⟨hb, (even_significand F b).1 heven, (even_significand F b').1 heven'⟩
  obtain ⟨heq, ⟨m, hm⟩, m', hm'⟩ := hdist
  have hnext := value_strictMono F (show b < b + 1 by omega)
  have hnext' := value_strictMono F (show b + 1 < b' by omega)
  have hmiddle := eq_middle (hnext.trans hnext') heq
  have hnear : |x - F.value (b + 1)| < |x - F.value b| := by
    rw [dist_lt_right hnext, hmiddle]
    linarith
  rcases h (b + 1) (Nat.succ_ne_self b) with hlt' | ⟨heq', -⟩
  · exact absurd (hlt'.trans hnear) (lt_irrefl _)
  · exact absurd heq' hnear.ne'

theorem roundsTo_iff {x : ℚ} (hb : 0 < b) (h : InRoundingInterval F b x) (b' : ℕ) :
    RoundsTo F x b' ↔ b' = b := by
  have hto := roundsTo_of_inRoundingInterval hb h
  constructor
  · intro h'
    exact h'.eq hto
  · rintro rfl
    exact hto

/-! ## Rounding to a multiple of the unit -/

/-- The nearest natural number, the even one of two that are equally near. -/
def RoundsEven (y : ℚ) (q : ℕ) : Prop := |y - q| ≤ 1 / 2 ∧ (|y - q| = 1 / 2 → Even q)

/-- The quotient by twice a half and the remainder, with a fraction below one: up where the
remainder reaches the half, and is more, or the quotient is odd. -/
theorem roundsEven_quotient {Q R M : ℕ} {f y : ℚ} (hM : 0 < M) (hR : R < 2 * M)
    (hf : 0 ≤ f) (hf' : f < 1)
    (hy : y * (2 * M) = Q * (2 * M) + R + f) :
    RoundsEven y (if M ≤ R ∧ (Odd Q ∨ M < R ∨ 0 < f) then Q + 1 else Q) := by
  have hM' : (0 : ℚ) < 2 * M := by exact_mod_cast (by omega : 0 < 2 * M)
  have hR' : (R : ℚ) + 1 ≤ 2 * M := by exact_mod_cast hR
  have hdist : y - Q = (R + f) / (2 * M) := by
    rw [eq_div_iff hM'.ne']
    linarith
  split
  · rename_i h
    obtain ⟨hle, hup⟩ := h
    have hle' : (M : ℚ) ≤ R := by exact_mod_cast hle
    have hdist' : y - (Q + 1 : ℕ) = -((2 * M - (R + f)) / (2 * M)) := by
      push_cast
      rw [← sub_sub, hdist]
      field_simp
      ring
    have habs : |y - (Q + 1 : ℕ)| = (2 * M - (R + f)) / (2 * M) := by
      rw [hdist', abs_neg, abs_of_nonneg (div_nonneg (by linarith) hM'.le)]
    rw [RoundsEven, habs]
    refine ⟨by rw [div_le_iff₀ hM']; linarith, fun htie => ?_⟩
    rw [div_eq_iff hM'.ne'] at htie
    have hR0 : (R : ℚ) = M := by linarith
    have hf0 : f = 0 := by linarith
    have hR0' : R = M := by exact_mod_cast hR0
    rcases hup with hodd | hlt | hpos
    · exact hodd.add_one
    · omega
    · exact absurd hf0 hpos.ne'
  · rename_i h
    have habs : |y - Q| = (R + f) / (2 * M) := by
      rw [hdist, abs_of_nonneg (div_nonneg (by positivity) hM'.le)]
    rw [RoundsEven, habs]
    rcases Nat.lt_or_ge R M with hlt | hge
    · have hlt' : (R : ℚ) + 1 ≤ M := by exact_mod_cast hlt
      have hbelow : (R + f) / (2 * M) < 1 / 2 := by
        rw [div_lt_iff₀ hM']
        linarith
      exact ⟨hbelow.le, fun htie => absurd htie hbelow.ne⟩
    · have hR0 : R = M := le_antisymm (not_lt.1 fun hlt => h ⟨hge, .inr (.inl hlt)⟩) hge
      have hf0 : f = 0 := le_antisymm (not_lt.1 fun hlt => h ⟨hge, .inr (.inr hlt)⟩) hf
      refine ⟨by rw [hf0, hR0, div_le_iff₀ hM']; linarith, fun _ => ?_⟩
      exact Nat.not_odd_iff_even.1 fun hodd => h ⟨hge, .inl hodd⟩

theorem value_multiple (F : Format) {q j : ℕ} (hq : q ≤ 2 ^ F.digits)
    (hj : j = 0 ∨ 2 ^ (F.digits - 1) ≤ q) :
    F.value (q + j * 2 ^ (F.digits - 1)) = q * 2 ^ (F.minExponent + j) := by
  have hpow : 2 ^ F.digits = 2 * 2 ^ (F.digits - 1) := by
    rw [← pow_succ', Nat.sub_add_cancel (Nat.le_of_lt F.one_lt)]
  have hone := Nat.two_pow_pos (F.digits - 1)
  unfold Format.value Format.ulp Format.significand Format.exponent
  rcases Nat.lt_or_ge q (2 ^ (F.digits - 1)) with hlt | hge
  · obtain rfl := hj.resolve_right (not_le.2 hlt)
    have hfield : F.field (0 * 2 ^ (F.digits - 1) + q) = 0 := field_eq hlt
    have hfraction : F.fraction (0 * 2 ^ (F.digits - 1) + q) = q := fraction_eq hlt
    rw [Nat.add_comm, hfield, if_pos rfl, hfraction]
  rcases Nat.lt_or_eq_of_le hq with hlt | rfl
  · have hsplit :
        q + j * 2 ^ (F.digits - 1) = (j + 1) * 2 ^ (F.digits - 1) + (q - 2 ^ (F.digits - 1)) := by
      rw [Nat.succ_mul]
      omega
    have hrest : q - 2 ^ (F.digits - 1) < 2 ^ (F.digits - 1) := by omega
    rw [hsplit, field_eq hrest, fraction_eq hrest, if_neg (Nat.succ_ne_zero j), Nat.add_sub_cancel,
      Nat.add_sub_of_le hge]
  · have hsplit : 2 ^ F.digits + j * 2 ^ (F.digits - 1) = (j + 2) * 2 ^ (F.digits - 1) + 0 := by
      rw [hpow]
      ring
    rw [hsplit, field_eq hone, fraction_eq hone, if_neg (Nat.succ_ne_zero _), Nat.add_zero, hpow]
    push_cast
    rw [show F.minExponent + ((j : ℤ) + 1) = F.minExponent + j + 1 by ring,
      zpow_add_one₀ two_ne_zero]
    ring

theorem exists_value (F : Format) {q : ℕ} (j : ℕ) (hq : q ≤ 2 ^ F.digits) :
    ∃ b, F.value b = q * 2 ^ (F.minExponent + j) := by
  induction j generalizing q with
  | zero => exact ⟨_, value_multiple F hq (.inl rfl)⟩
  | succ j ih =>
    rcases Nat.lt_or_ge q (2 ^ (F.digits - 1)) with hlt | hge
    · have hdouble : 2 * q ≤ 2 ^ F.digits := by
        rw [← Nat.sub_add_cancel (Nat.le_of_lt F.one_lt), pow_succ']
        omega
      obtain ⟨b, hb⟩ := ih hdouble
      refine ⟨b, ?_⟩
      rw [hb]
      push_cast
      rw [← add_assoc, zpow_add_one₀ two_ne_zero]
      ring
    · exact ⟨_, value_multiple F hq (.inr hge)⟩

theorem roundsTo_of_roundsEven {v : ℚ} {q j : ℕ}
    (hlow : j = 0 ∨ 2 ^ (F.digits - 1) * 2 ^ (F.minExponent + j) ≤ v)
    (hhigh : v < 2 ^ F.digits * 2 ^ (F.minExponent + j))
    (h : RoundsEven (v / 2 ^ (F.minExponent + j)) q) :
    q ≤ 2 ^ F.digits ∧ F.value (q + j * 2 ^ (F.digits - 1)) = q * 2 ^ (F.minExponent + j) ∧
      RoundsTo F v (q + j * 2 ^ (F.digits - 1)) := by
  have hpow : (0 : ℚ) < 2 ^ (F.minExponent + j) := zpow_pos two_pos _
  set u : ℚ := 2 ^ (F.minExponent + j) with hu
  obtain ⟨hhalf, htie⟩ := h
  have habs := abs_le.1 hhalf
  have hq : q ≤ 2 ^ F.digits := by
    have hlt : v / u < 2 ^ F.digits := (div_lt_iff₀ hpow).2 hhigh
    have hlt' : (q : ℚ) < (2 ^ F.digits + 1 : ℕ) := by
      push_cast
      linarith
    exact Nat.le_of_lt_succ (by exact_mod_cast hlt')
  have hj : j = 0 ∨ 2 ^ (F.digits - 1) ≤ q := by
    rcases hlow with rfl | hlow
    · exact .inl rfl
    right
    have hle : 2 ^ (F.digits - 1) ≤ v / u := (le_div_iff₀ hpow).2 hlow
    have hlt : ((2 ^ (F.digits - 1) : ℕ) : ℚ) < (q + 1 : ℕ) := by
      push_cast
      linarith
    exact Nat.le_of_lt_succ (by exact_mod_cast hlt)
  have hvalue := value_multiple F hq hj
  rw [← hu] at hvalue
  refine ⟨hq, hvalue, fun b' hne => ?_⟩
  have hdist : |v - q * u| = |v / u - q| * u := by
    rw [← abs_of_pos hpow, ← abs_mul, abs_of_pos hpow]
    congr 1
    field_simp
  have heven : Even q → Even (F.significand (q + j * 2 ^ (F.digits - 1))) := by
    intro heven
    have htwo : Even (2 ^ (F.digits - 1)) := even_two.pow_of_ne_zero (by have := F.one_lt; omega)
    rw [even_significand]
    exact heven.add (htwo.mul_left j)
  -- Another number is at least half a unit away, and a tie is for the even one.
  have hfar : u / 2 ≤ |v - F.value b'| → |v - F.value (q + j * 2 ^ (F.digits - 1))| <
    |v - F.value b'| ∨
      (|v - F.value (q + j * 2 ^ (F.digits - 1))| = |v - F.value b'| ∧
        Even (F.significand (q + j * 2 ^ (F.digits - 1)))) := by
    intro hle
    rw [hvalue, hdist]
    rcases hhalf.lt_or_eq with hlt | heq
    · have := mul_lt_mul_of_pos_right hlt hpow
      exact .inl (by linarith)
    rw [heq]
    rcases hle.lt_or_eq with hlt | heq'
    · exact .inl (by linarith)
    · exact .inr ⟨by linarith, heven (htie heq)⟩
  have hmul := mul_le_mul_of_nonneg_right habs.1 hpow.le
  have hmul' := mul_le_mul_of_nonneg_right habs.2 hpow.le
  rw [sub_mul, div_mul_cancel₀ _ hpow.ne'] at hmul hmul'
  rcases Nat.lt_or_gt_of_ne hne with hlt | hgt
  · have hmono := (value_strictMono F).monotone (show b' ≤ q + j * 2 ^ (F.digits - 1) - 1 by omega)
    have hpred := value_pred F (show 0 < q + j * 2 ^ (F.digits - 1) by omega)
    rw [hvalue] at hpred
    by_cases hfirst : j ≠ 0 ∧ q = 2 ^ (F.digits - 1)
    · -- The number below is nearer than a unit, but the rational is not below the power of two.
      obtain ⟨hj0, hq0⟩ := hfirst
      have hle := hlow.resolve_left hj0
      have hstrict := value_strictMono F hlt
      rw [hvalue, hq0] at hstrict
      push_cast at hstrict
      refine .inl ?_
      rw [hvalue, hq0]
      push_cast
      rw [abs_of_nonneg (by linarith), abs_of_pos (by linarith)]
      linarith
    · have hulp : F.ulp (q + j * 2 ^ (F.digits - 1) - 1) = u := by
        have hq1 : 0 < q := by
          rcases hj with rfl | hle
          · omega
          · exact (Nat.two_pow_pos _).trans_le hle
        have hvalue' := value_multiple F (j := j) (q := q - 1) (by omega) (by
          rcases Nat.eq_zero_or_pos j with h0 | hpos
          · exact .inl h0
          · have hle := hj.resolve_left hpos.ne'
            exact .inr (by have := mt (fun h => (⟨hpos.ne', h⟩ : j ≠ 0 ∧ q = _)) hfirst; omega))
        rw [show q - 1 + j * 2 ^ (F.digits - 1) = q + j * 2 ^ (F.digits - 1) - 1 by omega, ← hu,
          Nat.cast_sub hq1] at hvalue'
        rw [hvalue'] at hpred
        push_cast at hpred
        linarith
      rw [hulp] at hpred
      refine hfar ?_
      rw [abs_of_nonneg (by linarith)]
      linarith
  · have hmono := (value_strictMono F).monotone (show q + j * 2 ^ (F.digits - 1) + 1 ≤ b' from hgt)
    have hulp : u ≤ F.ulp (q + j * 2 ^ (F.digits - 1)) := by
      have hfield : j ≤ F.field (q + j * 2 ^ (F.digits - 1)) - 1 := by
        rcases hj with rfl | hle
        · exact Nat.zero_le _
        · refine Nat.le_sub_of_add_le ((Nat.le_div_iff_mul_le (Nat.two_pow_pos _)).2 ?_)
          rw [Nat.succ_mul]
          omega
      exact zpow_le_zpow_right₀ (by norm_num) (by unfold Format.exponent; omega)
    rw [value_succ, hvalue] at hmono
    refine hfar ?_
    rw [abs_of_nonpos (by linarith)]
    linarith

end BinaryFloat
