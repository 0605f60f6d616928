import Sbcl.Printer.Flonum
import Sbcl.Lib.BinaryFloat

/-!
# The digits of a float are in its rounding interval

* `Generated` : digits in an interval, and none of the same length in it are nearer; `generate_spec`
  : the loop makes such digits, from one turn to the next;
* `scale_spec`, `fixup_spec` : from an estimate that is the exponent or one less to the exponent;
* `freeFormat_spec` : the digits of `f * 2 ^ e`, in the interval of the algorithm;
* `Aligned` : what that interval is to the rounding interval of the float, for each kind of float.
-/

namespace Sbcl.Printer

open BinaryFloat Numeral Option

/-! ## Generation -/

/-- The digits after the point. -/
def fractionOf (digits : List ℕ) : ℚ := horner 10 0 digits / 10 ^ digits.length

theorem fractionOf_cons (d : ℕ) (digits : List ℕ) :
    fractionOf (d :: digits) = (d + fractionOf digits) / 10 := by
  unfold fractionOf
  rw [horner_cons, horner_eq, List.length_cons, Nat.zero_mul, Nat.zero_add]
  push_cast
  rw [pow_succ]
  field_simp

theorem fractionOf_singleton (d : ℕ) : fractionOf [d] = d / 10 := by
  rw [fractionOf_cons]
  simp [fractionOf, horner]

/-- Digits in the interval from `x - low` to `x + high`, and none of the same length in it are
nearer to `x`. -/
structure Generated (ok : Bool) (x low high : ℚ) (digits : List ℕ) : Prop where
  digit_lt : ∀ d ∈ digits, d < 10
  above : Below ok (x - low) (fractionOf digits)
  below : Below ok (fractionOf digits) (x + high)
  nearest : ∀ N : ℤ, Below ok (x - low) (N / 10 ^ digits.length) →
    Below ok (N / 10 ^ digits.length) (x + high) →
    |fractionOf digits - x| ≤ |N / 10 ^ digits.length - x|

variable {ok : Bool} {x low high : ℚ} {d : ℕ} {digits : List ℕ}

theorem below_shift (ok : Bool) (d : ℚ) (x y : ℚ) :
    Below ok ((d + x) / 10) ((d + y) / 10) ↔ Below ok x y :=
  below_iff_of_sub (c := 10) (by norm_num) (by ring)

theorem Generated.cons (hd : d < 10) (h : Generated ok (x * 10 - d) (low * 10) (high * 10) digits) :
    Generated ok x low high (d :: digits) := by
  have hlow : x - low = (d + (x * 10 - d - low * 10)) / 10 := by ring
  have hhigh : x + high = (d + (x * 10 - d + high * 10)) / 10 := by ring
  have hdist (y : ℚ) : |(d + y) / 10 - x| = |y - (x * 10 - d)| / 10 := by
    rw [show (d + y) / 10 - x = (y - (x * 10 - d)) / 10 by ring, abs_div]
    norm_num
  refine ⟨List.forall_mem_cons.2 ⟨hd, h.digit_lt⟩, ?_, ?_, fun N hN hN' => ?_⟩
  · rw [fractionOf_cons, hlow, below_shift]
    exact h.above
  · rw [fractionOf_cons, hhigh, below_shift]
    exact h.below
  have hcandidate : (N / 10 ^ (d :: digits).length : ℚ) =
      (d + ((N - d * 10 ^ digits.length : ℤ) : ℚ) / 10 ^ digits.length) / 10 := by
    rw [List.length_cons, pow_succ]
    push_cast
    field_simp
    ring
  rw [hcandidate] at hN hN' ⊢
  rw [hlow, below_shift] at hN
  rw [hhigh, below_shift] at hN'
  rw [fractionOf_cons, hdist, hdist]
  exact div_le_div_of_nonneg_right (h.nearest _ hN hN') (by norm_num)

theorem generated_down (hd : d < 10) (hx : (d : ℚ) ≤ x * 10) (hx' : x * 10 < d + 1)
    (hhigh : 0 < high)
    (h : Below ok (x * 10 - d) (low * 10))
    (hother : ¬Below ok 1 (x * 10 - d + high * 10) ∨ x * 10 - d ≤ 1 / 2) :
    Generated ok x low high [d] := by
  have hdist : |(d / 10 : ℚ) - x| = x - d / 10 := by rw [abs_of_nonpos (by linarith)]; ring
  refine ⟨fun e he => List.mem_singleton.1 he ▸ hd, ?_, ?_, fun N hN hN' => ?_⟩
  · rw [fractionOf_singleton]
    exact (below_iff_of_sub (c := 1 / 10) (by norm_num) (by ring)).1 h
  · rw [fractionOf_singleton]
    exact below_of_lt (by linarith)
  rw [List.length_singleton, pow_one] at hN' ⊢
  rw [fractionOf_singleton, hdist]
  rcases Int.lt_or_le (d : ℤ) N with hlt | hle
  · have hcast : ((d : ℚ) + 1) ≤ N := by exact_mod_cast hlt
    rw [abs_of_pos (by linarith)]
    rcases hother with hnot | hhalf
    · refine absurd ?_ hnot
      have hbelow : Below ok (((d : ℚ) + 1) / 10) (x + high) := Below.le_trans (by linarith) hN'
      exact (below_iff_of_sub (c := 10) (by norm_num) (by ring)).1 hbelow
    · linarith
  · have hcast : (N : ℚ) ≤ d := by exact_mod_cast hle
    rw [abs_of_nonpos (by linarith)]
    linarith

theorem generated_up (hd : d + 1 < 10) (hx : (d : ℚ) ≤ x * 10) (hx' : x * 10 < d + 1)
    (hlow : 0 ≤ low)
    (h : Below ok 1 (x * 10 - d + high * 10))
    (hother : ¬Below ok (x * 10 - d) (low * 10) ∨ 1 / 2 ≤ x * 10 - d) :
    Generated ok x low high [d + 1] := by
  have hdist : |((d + 1 : ℕ) / 10 : ℚ) - x| = (d + 1) / 10 - x := by
    push_cast
    rw [abs_of_nonneg (by linarith)]
  refine ⟨fun e he => List.mem_singleton.1 he ▸ hd, ?_, ?_, fun N hN hN' => ?_⟩
  · rw [fractionOf_singleton]
    push_cast
    exact below_of_lt (by linarith)
  · rw [fractionOf_singleton]
    push_cast
    exact (below_iff_of_sub (c := 1 / 10) (by norm_num) (by ring)).1 h
  rw [List.length_singleton, pow_one] at hN ⊢
  rw [fractionOf_singleton, hdist]
  rcases Int.lt_or_le (d : ℤ) N with hlt | hle
  · have hcast : ((d : ℚ) + 1) ≤ N := by exact_mod_cast hlt
    rw [abs_of_nonneg (by linarith)]
    linarith
  have hcast : (N : ℚ) ≤ d := by exact_mod_cast hle
  rw [abs_of_nonpos (by linarith)]
  rcases hother with hnot | hhalf
  · refine absurd ?_ hnot
    have hbelow : Below ok (x - low) ((d : ℚ) / 10) := hN.trans_le (by linarith)
    exact (below_iff_of_sub (c := 10) (by norm_num) (by ring)).1 hbelow
  · linarith

/-- The float, and its distances to the ends of the interval. -/
def Scaled.fraction (st : Scaled) : ℚ := st.r / st.s

def Scaled.lowGap (st : Scaled) : ℚ := st.mMinus / st.s

def Scaled.highGap (st : Scaled) : ℚ := st.mPlus / st.s

variable {b : ℕ}

theorem test_iff (ok : Bool) {s a : ℕ} (hs : 0 < s) :
    (decide (a < b) || (ok && decide (a = b))) = true ↔ Below ok ((a : ℚ) / s) (b / s) := by
  have hs' : (0 : ℚ) < s := by exact_mod_cast hs
  rw [div_eq_mul_inv, div_eq_mul_inv, below_mul (inv_pos.2 hs')]
  cases ok with
  | false => simp [Below]
  | true => simp [Below, le_iff_lt_or_eq]

/-- The digit of a turn, and what is left for the next one. -/
def Scaled.digit (st : Scaled) : ℕ := st.r * 10 / st.s

def Scaled.next (st : Scaled) : Scaled := ⟨st.r * 10 % st.s, st.s, st.mPlus * 10, st.mMinus * 10⟩

section Turn

variable {st : Scaled} (hs : 0 < st.s)
include hs

theorem cast_s_pos : (0 : ℚ) < st.s := by exact_mod_cast hs

theorem next_fraction : st.next.fraction = st.fraction * 10 - st.digit := by
  have hdiv : ((st.r * 10 / st.s : ℕ) : ℚ) * st.s + (st.r * 10 % st.s : ℕ) = st.r * 10 := by
    exact_mod_cast Nat.div_add_mod' (st.r * 10) st.s
  unfold Scaled.fraction Scaled.next Scaled.digit
  field_simp
  linarith

omit hs in
theorem next_lowGap : st.next.lowGap = st.lowGap * 10 := by
  unfold Scaled.lowGap Scaled.next
  push_cast
  ring

omit hs in
theorem next_highGap : st.next.highGap = st.highGap * 10 := by
  unfold Scaled.highGap Scaled.next
  push_cast
  ring

omit hs in
theorem fraction_nonneg : 0 ≤ st.fraction := by
  unfold Scaled.fraction
  positivity

theorem next_r_lt : st.next.r < st.next.s := Nat.mod_lt _ hs

theorem next_fraction_lt : st.next.fraction < 1 :=
  (div_lt_one (cast_s_pos hs)).2 (by exact_mod_cast next_r_lt hs)

theorem stop_low_iff (ok : Bool) :
    (decide (st.next.r < st.next.mMinus) || (ok && decide (st.next.r = st.next.mMinus))) = true ↔
    Below ok st.next.fraction st.next.lowGap := test_iff ok hs

theorem stop_high_iff (ok : Bool) :
    (decide (st.s < st.next.r + st.next.mPlus) ||
      (ok && decide (st.next.r + st.next.mPlus = st.s))) = true ↔
      Below ok 1 (st.next.fraction + st.next.highGap) := by
  have h := test_iff ok (a := st.s) (b := st.next.r + st.next.mPlus) hs
  rw [div_self (cast_s_pos hs).ne', Nat.cast_add, add_div] at h
  rw [show decide (st.next.r + st.next.mPlus = st.s) =
    decide (st.s = st.next.r + st.next.mPlus) from
    decide_eq_decide.2 eq_comm]
  exact h

theorem round_iff : st.next.r * 2 < st.s ↔ st.next.fraction < 1 / 2 := by
  rw [Scaled.fraction, show st.next.s = st.s from rfl, div_lt_iff₀ (cast_s_pos hs)]
  constructor
  · intro h
    have : ((st.next.r : ℕ) : ℚ) * 2 < st.s := by exact_mod_cast h
    linarith
  · intro h
    have : ((st.next.r : ℕ) : ℚ) * 2 < st.s := by linarith
    exact_mod_cast this

theorem generate_cases (ok : Bool) (fuel : ℕ) :
    ((Below ok st.next.fraction st.next.lowGap ∨ Below ok 1 (st.next.fraction + st.next.highGap)) ∧
      ∃ d, generate ok ok (fuel + 1) st = some [d] ∧
        ((d = st.digit ∧ Below ok st.next.fraction st.next.lowGap ∧
            (¬Below ok 1 (st.next.fraction + st.next.highGap) ∨ st.next.fraction ≤ 1 / 2)) ∨
          (d = st.digit + 1 ∧ Below ok 1 (st.next.fraction + st.next.highGap) ∧
            (¬Below ok st.next.fraction st.next.lowGap ∨ 1 / 2 ≤ st.next.fraction)))) ∨
      (¬Below ok st.next.fraction st.next.lowGap ∧
        ¬Below ok 1 (st.next.fraction + st.next.highGap) ∧
        generate ok ok (fuel + 1) st = (generate ok ok fuel st.next).map (st.digit :: ·)) := by
  have hgenerate : generate ok ok (fuel + 1) st =
      let tc1 := decide (st.next.r < st.next.mMinus) || (ok && decide (st.next.r = st.next.mMinus))
      let tc2 := decide (st.s < st.next.r + st.next.mPlus) ||
        (ok && decide (st.next.r + st.next.mPlus = st.s))
      if tc1 || tc2 then
        some [if !tc1 && tc2 then st.digit + 1 else if tc1 && !tc2 then st.digit
          else if st.next.r * 2 < st.s then st.digit else st.digit + 1]
      else (generate ok ok fuel st.next).map (st.digit :: ·) := rfl
  have hlow := stop_low_iff hs ok
  have hhigh := stop_high_iff hs ok
  have hround := round_iff hs
  generalize (decide (st.next.r < st.next.mMinus) || (ok && decide (st.next.r = st.next.mMinus))) =
    tc1 at hlow hgenerate
  generalize (decide (st.s < st.next.r + st.next.mPlus) ||
    (ok && decide (st.next.r + st.next.mPlus = st.s))) = tc2 at hhigh hgenerate
  cases tc1 with
  | false =>
    have hnot := mt hlow.2 Bool.false_ne_true
    cases tc2 with
    | false => exact .inr ⟨hnot, mt hhigh.2 Bool.false_ne_true, hgenerate⟩
    | true => exact .inl ⟨.inr (hhigh.1 rfl), _, hgenerate, .inr ⟨rfl, hhigh.1 rfl, .inl hnot⟩⟩
  | true =>
    cases tc2 with
    | false => exact .inl ⟨.inl (hlow.1 rfl), _, hgenerate,
      .inl ⟨rfl, hlow.1 rfl, .inl (mt hhigh.2 Bool.false_ne_true)⟩⟩
    | true =>
      refine .inl ⟨.inl (hlow.1 rfl), _, hgenerate, ?_⟩
      by_cases h : st.next.r * 2 < st.s
      · exact .inl ⟨if_pos h, hlow.1 rfl, .inr (hround.1 h).le⟩
      · exact .inr ⟨if_neg h, hhigh.1 rfl, .inr (not_lt.1 (mt hround.2 h))⟩

end Turn

variable {st : Scaled}

theorem generate_spec {fuel : ℕ} (hr : st.r < st.s) (hpos : 0 < st.mPlus)
    (hfuel : st.s < st.mPlus * 10 ^ fuel) (hupper : ¬Below ok 1 (st.fraction + st.highGap)) :
    ∃ digits, generate ok ok fuel st = some digits ∧
      Generated ok st.fraction st.lowGap st.highGap digits := by
  have hs' : 0 < st.s := Nat.zero_lt_of_lt hr
  have hs := cast_s_pos hs'
  induction fuel generalizing st with
  | zero =>
    exfalso
    rw [pow_zero, Nat.mul_one] at hfuel
    apply hupper
    have hgap : 1 < st.highGap := (one_lt_div hs).2 (by exact_mod_cast hfuel)
    have hfraction : 0 ≤ st.fraction := fraction_nonneg
    exact below_of_lt (by linarith)
  | succ fuel ih =>
    have hd : st.digit < 10 := Nat.div_lt_of_lt_mul (by omega)
    have hx0 : 0 ≤ st.next.fraction := fraction_nonneg
    have hx1 := next_fraction_lt hs'
    have hgap0 : (0 : ℚ) ≤ st.lowGap := by unfold Scaled.lowGap; positivity
    have hgap1 : (0 : ℚ) < st.highGap := div_pos (by exact_mod_cast hpos) hs
    have hfraction := next_fraction hs'
    have hlow : st.next.lowGap = st.lowGap * 10 := next_lowGap
    have hhigh : st.next.highGap = st.highGap * 10 := next_highGap
    -- The first turn is over, and there is no digit above nine.
    have hup : Below ok 1 (st.next.fraction + st.next.highGap) → st.digit + 1 < 10 := by
      intro h
      by_contra hnine
      have heq : (st.digit : ℚ) = 9 := by exact_mod_cast (show st.digit = 9 by omega)
      rw [hfraction, hhigh, heq] at h
      exact hupper ((below_iff_of_sub (c := 10) (by norm_num) (by ring)).2 h)
    have hx : (st.digit : ℚ) ≤ st.fraction * 10 := by linarith
    have hx' : st.fraction * 10 < st.digit + 1 := by linarith
    rcases generate_cases hs' ok fuel with ⟨-, d, hdigits, hlast⟩ | ⟨-, hnot, hdigits⟩
    · refine ⟨[d], hdigits, ?_⟩
      rw [hfraction, hlow, hhigh] at hlast
      rw [hfraction, hhigh] at hup
      rcases hlast with ⟨rfl, hbelow, hother⟩ | ⟨rfl, hbelow, hother⟩
      · exact generated_down hd hx hx' hgap1 hbelow hother
      · exact generated_up (hup hbelow) hx hx' hgap0 hbelow hother
    · obtain ⟨digits, hrest, hgenerated⟩ := ih (next_r_lt hs') (Nat.mul_pos hpos (by decide))
        (by rw [Scaled.next, Nat.mul_assoc, ← pow_succ']; exact hfuel) hnot hs' hs
      rw [hfraction, hlow, hhigh] at hgenerated
      refine ⟨st.digit :: digits, ?_, hgenerated.cons hd⟩
      rw [hdigits, hrest]
      rfl

/-! ## The exponent -/

/-- The least power of ten above an end of an interval. -/
def IsExponent (ok : Bool) (upper : ℚ) (k : ℤ) : Prop :=
  ¬Below ok (10 ^ k) upper ∧ Below ok (10 ^ (k - 1)) upper

theorem ten_zpow_pos (k : ℤ) : (0 : ℚ) < 10 ^ k := zpow_pos (by norm_num) k

theorem IsExponent.unique {k k' : ℤ} (h : IsExponent ok x k)
    (h' : IsExponent ok x k') : k = k' := by
  have key : ∀ {k k' : ℤ}, IsExponent ok x k → IsExponent ok x k' → k ≤ k' := by
    intro k k' h h'
    by_contra hlt
    refine h'.1 (Below.le_trans ?_ h.2)
    exact zpow_le_zpow_right₀ (by norm_num) (by omega)
  exact le_antisymm (key h h') (key h' h)

/-- The integers stand for a float and its gaps, all of them divided by a power of ten. -/
structure Scaled.Is (st : Scaled) (x low high : ℚ) : Prop where
  s_pos : 0 < st.s
  mPlus_pos : 0 < st.mPlus
  fraction : st.fraction = x
  lowGap : st.lowGap = low
  highGap : st.highGap = high

theorem Scaled.Is.cast_pos (h : st.Is x low high) : (0 : ℚ) < st.s := by exact_mod_cast h.s_pos

variable {est : ℤ}

theorem scale_spec (h : st.Is x low high) (hmin : -323 ≤ est) (hmax : est ≤ 309) :
    ∃ st', scale st est = some st' ∧ st'.Is (x / 10 ^ est) (low / 10 ^ est) (high / 10 ^ est) := by
  unfold scale expt10
  split
  · have hcast : (10 : ℚ) ^ est = 10 ^ est.toNat := by
      rw [← zpow_natCast, Int.toNat_of_nonneg ‹_›]
    rw [if_pos (by omega), hcast]
    refine ⟨_, rfl, Nat.mul_pos h.s_pos (by positivity), h.mPlus_pos, ?_, ?_, ?_⟩
    · rw [← h.fraction, Scaled.fraction, Scaled.fraction, div_div]
      push_cast
      rfl
    · rw [← h.lowGap, Scaled.lowGap, Scaled.lowGap, div_div]
      push_cast
      rfl
    · rw [← h.highGap, Scaled.highGap, Scaled.highGap, div_div]
      push_cast
      rfl
  · have hcast : (10 : ℚ) ^ est = ((10 : ℚ) ^ (-est).toNat)⁻¹ := by
      rw [← zpow_natCast, Int.toNat_of_nonneg (by omega), zpow_neg, inv_inv]
    rw [if_pos (by omega), hcast]
    refine ⟨_, rfl, h.s_pos, Nat.mul_pos h.mPlus_pos (by positivity), ?_, ?_, ?_⟩
    · rw [← h.fraction, Scaled.fraction, Scaled.fraction, div_inv_eq_mul, div_mul_eq_mul_div]
      push_cast
      rfl
    · rw [← h.lowGap, Scaled.lowGap, Scaled.lowGap, div_inv_eq_mul, div_mul_eq_mul_div]
      push_cast
      rfl
    · rw [← h.highGap, Scaled.highGap, Scaled.highGap, div_inv_eq_mul, div_mul_eq_mul_div]
      push_cast
      rfl

theorem fixup_spec (h : st.Is (x / 10 ^ est) (low / 10 ^ est) (high / 10 ^ est))
    (hest : IsExponent ok (x + high) est ∨ IsExponent ok (x + high) (est + 1)) :
    ∃ st' k, fixup ok st est = (st', k) ∧ IsExponent ok (x + high) k ∧
      st'.Is (x / 10 ^ k) (low / 10 ^ k) (high / 10 ^ k) := by
  have hs := h.cast_pos
  have htest : (if ok then st.s ≤ st.r + st.mPlus else st.s < st.r + st.mPlus) ↔
      Below ok (10 ^ est) (x + high) := by
    have hsum : (st.r : ℚ) + st.mPlus = (x + high) / 10 ^ est * st.s := by
      rw [add_div, ← h.fraction, ← h.highGap, Scaled.fraction, Scaled.highGap]
      field_simp
    have hmul : Below ok ((st.s : ℚ)) (st.r + st.mPlus) ↔ Below ok (10 ^ est) (x + high) := by
      rw [hsum]
      have hpow := ten_zpow_pos est
      exact (below_iff_of_sub (c := st.s / 10 ^ est) (div_pos hs hpow) (by field_simp)).symm
    rw [← hmul]
    cases ok with
    | false =>
      show st.s < st.r + st.mPlus ↔ (st.s : ℚ) < st.r + st.mPlus
      exact_mod_cast Iff.rfl
    | true =>
      show st.s ≤ st.r + st.mPlus ↔ (st.s : ℚ) ≤ st.r + st.mPlus
      exact_mod_cast Iff.rfl
  unfold fixup
  rcases hest with hest | hest
  · rw [if_neg (mt htest.1 hest.1)]
    exact ⟨st, est, rfl, hest, h⟩
  have hbelow := hest.2
  rw [add_sub_cancel_right] at hbelow
  rw [if_pos (htest.2 hbelow)]
  have hten : (10 : ℚ) ^ (est + 1) = 10 ^ est * 10 := zpow_add_one₀ (by norm_num) est
  refine ⟨_, est + 1, rfl, hest, Nat.mul_pos h.s_pos (by norm_num), h.mPlus_pos, ?_, ?_, ?_⟩
  · rw [hten, ← div_div, ← h.fraction, Scaled.fraction, Scaled.fraction, div_div]
    push_cast
    rfl
  · rw [hten, ← div_div, ← h.lowGap, Scaled.lowGap, Scaled.lowGap, div_div]
    push_cast
    rfl
  · rw [hten, ← div_div, ← h.highGap, Scaled.highGap, Scaled.highGap, div_div]
    push_cast
    rfl

/-- The number that digits after the point and an exponent stand for. -/
def decimalValue (k : ℤ) (digits : List ℕ) : ℚ := horner 10 0 digits * 10 ^ (k - digits.length)

theorem decimal_eq (N : ℚ) (k : ℤ) (n : ℕ) : N * 10 ^ (k - n) = N / 10 ^ n * 10 ^ k := by
  rw [zpow_sub₀ (by norm_num), zpow_natCast]
  ring

theorem Generated.decimal {k : ℤ}
    (h : Generated ok (x / 10 ^ k) (low / 10 ^ k) (high / 10 ^ k) digits) :
    Below ok (x - low) (decimalValue k digits) ∧ Below ok (decimalValue k digits) (x + high) ∧
      ∀ N : ℤ, Below ok (x - low) (N * 10 ^ (k - digits.length)) →
        Below ok (N * 10 ^ (k - digits.length)) (x + high) →
        |decimalValue k digits - x| ≤ |N * 10 ^ (k - digits.length) - x| := by
  have hpow := ten_zpow_pos k
  have hlow (y : ℚ) : Below ok (x - low) (y * 10 ^ k) ↔ Below ok (x / 10 ^ k - low / 10 ^ k) y :=
    (below_iff_of_sub hpow (by field_simp)).symm
  have hhigh (y : ℚ) : Below ok (y * 10 ^ k) (x + high) ↔ Below ok y (x / 10 ^ k + high / 10 ^ k) :=
    (below_iff_of_sub hpow (by field_simp)).symm
  have hdist (y : ℚ) : |y * 10 ^ k - x| = |y - x / 10 ^ k| * 10 ^ k := by
    rw [← abs_of_pos hpow, ← abs_mul, abs_of_pos hpow]
    congr 1
    field_simp
  have hvalue : decimalValue k digits = fractionOf digits * 10 ^ k := decimal_eq _ k _
  rw [hvalue, hlow, hhigh]
  refine ⟨h.above, h.below, fun N hN hN' => ?_⟩
  rw [decimal_eq] at hN hN' ⊢
  rw [hlow] at hN
  rw [hhigh] at hN'
  rw [hdist, hdist]
  exact mul_le_mul_of_nonneg_right (h.nearest N hN hN') hpow.le

/-! ## The integers of the algorithm -/

variable (type : FloatType)

theorem minE_neg : type.minE < 0 := by cases type <;> decide

/-- The lower gap is the half of the upper one for a power of two, but at the minimum exponent of
the code. -/
def lowGapOf (f : ℕ) (e : ℤ) : ℚ :=
  if f = 2 ^ (type.digits - 1) ∧ e ≠ type.minE then 2 ^ e / 4 else 2 ^ e / 2

variable {f : ℕ} {e : ℤ}

theorem initialScaled_spec (he : e ≤ 971) :
    ∃ st, initialScaled type f e = some st ∧ st.Is (f * 2 ^ e) (lowGapOf type f e) (2 ^ e / 2) := by
  have hminE := minE_neg type
  unfold initialScaled expt2 lowGapOf
  by_cases h0 : 0 ≤ e
  · have hcast : (2 : ℚ) ^ e = 2 ^ e.toNat := by rw [← zpow_natCast, Int.toNat_of_nonneg h0]
    rw [if_pos h0, if_pos (by omega), if_pos (by omega), hcast, bind_eq_bind, bind_some]
    by_cases hf : f = 2 ^ (type.digits - 1)
    · rw [if_neg (not_not.2 hf), if_pos ⟨hf, by omega⟩]
      refine ⟨_, rfl, by norm_num, Nat.two_pow_pos _, ?_, ?_, ?_⟩
      · rw [Scaled.fraction, Nat.shiftLeft_eq, pow_add]
        push_cast
        ring
      · rw [Scaled.lowGap]
        push_cast
        ring
      · rw [Scaled.highGap, Nat.add_comm 1, pow_succ]
        push_cast
        ring
    · rw [if_pos hf, if_neg fun h => hf h.1]
      refine ⟨_, rfl, by norm_num, Nat.two_pow_pos _, ?_, ?_, ?_⟩
      · rw [Scaled.fraction, Nat.shiftLeft_eq, pow_succ]
        push_cast
        ring
      · rw [Scaled.lowGap]
        push_cast
        ring
      · rw [Scaled.highGap]
        push_cast
        ring
  · have hcast (i : ℕ) : (2 : ℚ) ^ ((i : ℤ) - e).toNat = 2 ^ i / 2 ^ e := by
      rw [← zpow_natCast, Int.toNat_of_nonneg (by omega), zpow_sub₀ two_ne_zero, zpow_natCast]
    have hcast1 : (2 : ℚ) ^ (1 - e).toNat = 2 / 2 ^ e := by simpa using hcast 1
    have hcast2 : (2 : ℚ) ^ (2 - e).toNat = 4 / 2 ^ e := by
      have h := hcast 2
      exact h
    rw [if_neg h0]
    by_cases hf : f = 2 ^ (type.digits - 1) ∧ e ≠ type.minE
    · rw [if_neg (not_or.2 ⟨hf.2, not_not.2 hf.1⟩), if_pos hf]
      refine ⟨_, rfl, Nat.two_pow_pos _, by norm_num, ?_, ?_, ?_⟩
      · rw [Scaled.fraction]
        push_cast
        rw [hcast2]
        field_simp
      · rw [Scaled.lowGap]
        push_cast
        rw [hcast2]
        field_simp
      rw [Scaled.highGap]
      push_cast
      rw [hcast2]
      field_simp
      norm_num
    · rw [if_pos (by tauto), if_neg hf]
      refine ⟨_, rfl, Nat.two_pow_pos _, by norm_num, ?_, ?_, ?_⟩
      · rw [Scaled.fraction]
        push_cast
        rw [hcast1]
        field_simp
      · rw [Scaled.lowGap]
        push_cast
        rw [hcast1]
        field_simp
      · rw [Scaled.highGap]
        push_cast
        rw [hcast1]
        field_simp

/-- The upper end of the interval that digits are generated in. -/
def upperEnd (f : ℕ) (e : ℤ) : ℚ := f * 2 ^ e + 2 ^ e / 2

theorem freeFormat_state (he : e ≤ 971) (hmin : -323 ≤ est) (hmax : est ≤ 309)
    (hest : IsExponent (f % 2 == 0) (upperEnd f e) est ∨
      IsExponent (f % 2 == 0) (upperEnd f e) (est + 1)) :
    ∃ st k, freeFormat type f e est =
      (generate (f % 2 == 0) (f % 2 == 0) (st.s.log2 + 1) st).map (k, ·) ∧
      IsExponent (f % 2 == 0) (upperEnd f e) k ∧
      st.Is (f * 2 ^ e / 10 ^ k) (lowGapOf type f e / 10 ^ k) (2 ^ e / 2 / 10 ^ k) ∧
      ¬Below (f % 2 == 0) 1 (st.fraction + st.highGap) := by
  obtain ⟨st, hinitial, hst⟩ := initialScaled_spec type (f := f) he
  obtain ⟨st₁, hscale, hst₁⟩ := scale_spec hst hmin hmax
  obtain ⟨st₂, k, hfixup, hk, hst₂⟩ := fixup_spec hst₁ hest
  refine ⟨st₂, k, ?_, hk, hst₂, ?_⟩
  · unfold freeFormat
    rw [hinitial, bind_eq_bind, bind_some, hscale, bind_some]
    rw [hfixup]
    exact (map_eq_bind ..).symm
  · rw [hst₂.fraction, hst₂.highGap]
    have hiff : Below (f % 2 == 0) 1 (f * 2 ^ e / 10 ^ k + 2 ^ e / 2 / 10 ^ k) ↔
        Below (f % 2 == 0) (10 ^ k) (upperEnd f e) := below_iff_of_sub (ten_zpow_pos k) (by
      unfold upperEnd
      field_simp)
    exact mt hiff.1 hk.1

theorem generate_returns (hst : st.Is x low high)
    (hupper : ¬Below ok 1 (st.fraction + st.highGap)) :
    ∃ digits, generate ok ok (st.s.log2 + 1) st = some digits ∧ Generated ok x low high digits := by
  have hgap : 0 < st.highGap := div_pos (by exact_mod_cast hst.mPlus_pos) hst.cast_pos
  have hr : st.r < st.s := by
    have hle := not_lt.1 (mt below_of_lt hupper)
    have hlt : st.fraction < 1 := by linarith
    exact_mod_cast (div_lt_one hst.cast_pos).1 hlt
  have hfuel : st.s < st.mPlus * 10 ^ (st.s.log2 + 1) :=
    calc st.s < 2 ^ (st.s.log2 + 1) := Nat.lt_log2_self
      _ ≤ 10 ^ (st.s.log2 + 1) := Nat.pow_le_pow_left (by norm_num) _
      _ ≤ st.mPlus * 10 ^ (st.s.log2 + 1) := Nat.le_mul_of_pos_left _ hst.mPlus_pos
  obtain ⟨digits, hdigits, hgenerated⟩ := generate_spec hr hst.mPlus_pos hfuel hupper
  rw [hst.fraction, hst.lowGap, hst.highGap] at hgenerated
  exact ⟨digits, hdigits, hgenerated⟩

theorem freeFormat_spec (he : e ≤ 971) (hmin : -323 ≤ est) (hmax : est ≤ 309)
    (hest : IsExponent (f % 2 == 0) (upperEnd f e) est ∨
      IsExponent (f % 2 == 0) (upperEnd f e) (est + 1)) :
    ∃ k digits, freeFormat type f e est = some (k, digits) ∧ IsExponent (f % 2 == 0)
      (upperEnd f e) k ∧
      Generated (f % 2 == 0) (f * 2 ^ e / 10 ^ k) (lowGapOf type f e / 10 ^ k)
        (2 ^ e / 2 / 10 ^ k) digits := by
  obtain ⟨st, k, hfree, hk, hst, hupper⟩ := freeFormat_state type he hmin hmax hest
  obtain ⟨digits, hdigits, hgenerated⟩ := generate_returns hst hupper
  refine ⟨k, digits, ?_, hk, hgenerated⟩
  rw [hfree, hdigits]
  rfl

/-! ## Decoding -/

/-- The numbers of a type. -/
def FloatType.format : FloatType → Format
  | .singleFloat => ⟨24, by decide, -149⟩
  | .doubleFloat => ⟨53, by decide, -1074⟩

theorem format_digits : type.format.digits = type.digits := by cases type <;> rfl

theorem format_minExponent : type.format.minExponent = type.subnormalExponent := by
  cases type <;> rfl

/-- The bits without the sign, which count the numbers of a type up to the float. -/
def ordinal (bits : FloatBits type) : ℕ := bits.toNat % 2 ^ (type.width - 1)

/-- Not an infinity, and not a NaN. -/
def IsFinite (bits : FloatBits type) : Prop :=
  ldbBits type.exponentByte bits ≤ type.normalExponentMax

theorem ldbBits_significandByte (bits : FloatBits type) :
    ldbBits type.significandByte bits = type.format.fraction (ordinal type bits) := by
  cases type with
  | singleFloat =>
    show bits.toNat / 2 ^ 0 % 2 ^ 23 = bits.toNat % 2 ^ 31 % 2 ^ 23
    rw [pow_zero, Nat.div_one, Nat.mod_mod_of_dvd _ (by decide)]
  | doubleFloat =>
    show bits.toNat / 2 ^ 0 % 2 ^ 52 = bits.toNat % 2 ^ 63 % 2 ^ 52
    rw [pow_zero, Nat.div_one, Nat.mod_mod_of_dvd _ (by decide)]

theorem ldbBits_exponentByte (bits : FloatBits type) :
    ldbBits type.exponentByte bits = type.format.field (ordinal type bits) := by
  cases type with
  | singleFloat =>
    show bits.toNat / 2 ^ 23 % 2 ^ 8 = bits.toNat % (2 ^ 23 * 2 ^ 8) / 2 ^ 23
    rw [Nat.mod_mul_right_div_self]
  | doubleFloat =>
    show bits.toNat / 2 ^ 52 % 2 ^ 11 = bits.toNat % (2 ^ 52 * 2 ^ 11) / 2 ^ 52
    rw [Nat.mod_mul_right_div_self]

theorem hiddenBit_eq : type.hiddenBit = 2 ^ (type.digits - 1) := by cases type <;> rfl

theorem fraction_lt_type (b : ℕ) : type.format.fraction b < 2 ^ (type.digits - 1) :=
  format_digits type ▸ fraction_lt _ b

theorem exponent_normal (hfield : type.format.field b ≠ 0) :
    (type.format.field b : ℤ) - type.bias - type.digits = type.format.exponent b := by
  cases type with
  | singleFloat =>
    show ((_ : ℕ) : ℤ) - (126 : ℕ) - (24 : ℕ) = -149 + ((_ - 1 : ℕ) : ℤ)
    omega
  | doubleFloat =>
    show ((_ : ℕ) : ℤ) - (1022 : ℕ) - (53 : ℕ) = -1074 + ((_ - 1 : ℕ) : ℤ)
    omega

theorem significand_normal (hfield : type.format.field b ≠ 0) :
    type.hiddenBit ||| type.format.fraction b = type.format.significand b := by
  rw [Format.significand, if_neg hfield, hiddenBit_eq, format_digits]
  have h := Nat.two_pow_add_eq_or_of_lt (fraction_lt_type type b) 1
  rw [Nat.mul_one] at h
  exact h.symm

variable {bits : FloatBits type}

theorem leftAligned_normal (hfinite : IsFinite type bits)
    (hfield : type.format.field (ordinal type bits) ≠ 0) :
    leftAligned type bits =
      some (type.format.significand (ordinal type bits),
        type.format.exponent (ordinal type bits)) := by
  unfold leftAligned integerDecodeFloat floatPrecision
  unfold IsFinite at hfinite
  rw [ldbBits_exponentByte] at hfinite ⊢
  rw [ldbBits_significandByte, if_neg hfield, if_neg hfield, if_neg (not_lt.2 hfinite),
    exponent_normal type hfield, significand_normal type hfield]
  exact if_neg (lt_irrefl _)

theorem leftAligned_subnormal (hfield : type.format.field (ordinal type bits) = 0)
    (hb : ordinal type bits ≠ 0) :
    ∃ shift : ℕ, 0 < shift ∧ 2 ^ (type.digits - 1) ≤ ordinal type bits * 2 ^ shift ∧
      ordinal type bits * 2 ^ shift < 2 ^ type.digits ∧
      leftAligned type bits = some (ordinal type bits * 2 ^ shift,
        type.subnormalExponent - shift) := by
  have hb' : type.format.fraction (ordinal type bits) = ordinal type bits := by
    have h := field_fraction type.format (ordinal type bits)
    rwa [hfield, Nat.zero_mul, Nat.zero_add] at h
  have hlt : ordinal type bits < 2 ^ (type.digits - 1) := hb' ▸ fraction_lt_type type _
  have hsize : integerLength (ordinal type bits) ≤ type.digits - 1 := Nat.size_le.2 hlt
  have hlow : 2 ^ (integerLength (ordinal type bits) - 1) ≤ ordinal type bits := by
    refine Nat.lt_size.1 ?_
    have hpos : 0 < Nat.size (ordinal type bits) := Nat.size_pos.2 (Nat.pos_of_ne_zero hb)
    show Nat.size (ordinal type bits) - 1 < _
    omega
  have hpos : 0 < integerLength (ordinal type bits) := Nat.size_pos.2 (Nat.pos_of_ne_zero hb)
  refine ⟨type.digits - integerLength (ordinal type bits), by omega, ?_, ?_, ?_⟩
  · calc 2 ^ (type.digits - 1)
        = 2 ^ (integerLength (ordinal type bits) - 1) *
          2 ^ (type.digits - integerLength (ordinal type bits)) := by
          rw [← pow_add]
          congr 1
          omega
      _ ≤ ordinal type bits * 2 ^ (type.digits - integerLength (ordinal type bits)) :=
        Nat.mul_le_mul_right _ hlow
  · calc ordinal type bits * 2 ^ (type.digits - integerLength (ordinal type bits))
        < 2 ^ integerLength (ordinal type bits) *
          2 ^ (type.digits - integerLength (ordinal type bits)) :=
          Nat.mul_lt_mul_of_pos_right (Nat.lt_size_self _) (Nat.two_pow_pos _)
      _ = 2 ^ type.digits := by
          rw [← pow_add]
          congr 1
          omega
  · unfold leftAligned integerDecodeFloat floatPrecision
    rw [ldbBits_exponentByte, ldbBits_significandByte, hb', hfield, if_pos rfl, if_neg hb,
      if_pos rfl, bind_eq_bind, bind_some]
    dsimp only
    rw [if_pos (by omega), Nat.shiftLeft_eq, Nat.cast_sub (by omega)]

/-! ## The interval of the algorithm and the interval of the float -/

/-- A float as the algorithm sees it, and the interval that it works with: the interval of the
float; a narrower one that goes as far to both sides; or, for a power of two among the smallest
floats, one that the digits are looked up for. -/
structure Aligned (bits : FloatBits type) (f : ℕ) (e : ℤ) : Prop where
  aligned : leftAligned type bits = some (f, e)
  value : type.format.value (ordinal type bits) = f * 2 ^ e
  e_le : e ≤ 971
  interval : (type.format.field (ordinal type bits) ≠ 0 ∧ ∀ x,
    InRoundingInterval type.format (ordinal type bits) x ↔
      Below (f % 2 == 0) (f * 2 ^ e - lowGapOf type f e) x ∧
      Below (f % 2 == 0) x (f * 2 ^ e + 2 ^ e / 2)) ∨
    ((∀ j, ordinal type bits ≠ 2 ^ j) ∧ (∀ x, Below (f % 2 == 0) (f * 2 ^ e - lowGapOf type f e) x →
      Below (f % 2 == 0) x (f * 2 ^ e + 2 ^ e / 2) →
      InRoundingInterval type.format (ordinal type bits) x) ∧ lowGapOf type f e = 2 ^ e / 2) ∨
    ∃ j ≤ type.digits, ordinal type bits = 2 ^ j ∧ f = 2 ^ (type.digits - 1) ∧
      e = type.subnormalExponent + j - (type.digits - 1 : ℕ) ∧ (j < type.digits → ∀ x,
        Below (f % 2 == 0) (f * 2 ^ e - lowGapOf type f e) x →
        Below (f % 2 == 0) x (f * 2 ^ e + 2 ^ e / 2) →
          InRoundingInterval type.format (ordinal type bits) x)

theorem exponent_le (hfinite : IsFinite type bits) :
    type.format.exponent (ordinal type bits) ≤ 971 := by
  unfold IsFinite at hfinite
  rw [ldbBits_exponentByte] at hfinite
  cases type with
  | singleFloat =>
    show (-149 + ((_ - 1 : ℕ) : ℤ)) ≤ 971
    have h : FloatType.singleFloat.normalExponentMax = 254 := rfl
    omega
  | doubleFloat =>
    show (-1074 + ((_ - 1 : ℕ) : ℤ)) ≤ 971
    have h : FloatType.doubleFloat.normalExponentMax = 2046 := rfl
    omega

theorem minE_eq : type.minE = type.subnormalExponent + 1 := by cases type <;> rfl

theorem subnormalExponent_le : type.subnormalExponent ≤ 971 := by cases type <;> decide

theorem lowGapOf_le (f : ℕ) (e : ℤ) : lowGapOf type f e ≤ 2 ^ e / 2 := by
  have hpow : (0 : ℚ) < 2 ^ e := zpow_pos two_pos e
  unfold lowGapOf
  split
  · linarith
  · exact le_rfl

theorem ulp_subnormal (hfield : type.format.field b = 0) (hb : b ≠ 0) :
    type.format.ulp b = 2 ^ type.subnormalExponent ∧
    type.format.ulp (b - 1) = 2 ^ type.subnormalExponent := by
  have hfield' : type.format.field (b - 1) = 0 := by
    have h := succ_cases type.format (b - 1)
    rw [Nat.sub_add_cancel (Nat.pos_of_ne_zero hb), hfield] at h
    omega
  rw [Format.ulp, Format.ulp, Format.exponent, Format.exponent, hfield, hfield', format_minExponent]
  simp

theorem aligned_subnormal (hfield : type.format.field (ordinal type bits) = 0)
    (hb : ordinal type bits ≠ 0) : ∃ f e, Aligned type bits f e := by
  obtain ⟨shift, hshift, hlow, hhigh, haligned⟩ := leftAligned_subnormal type hfield hb
  set b := ordinal type bits with hbdef
  have hb' : type.format.fraction b = b := by
    have h := field_fraction type.format b
    rwa [hfield, Nat.zero_mul, Nat.zero_add] at h
  obtain ⟨hulp, hulp'⟩ := ulp_subnormal type hfield hb
  have hpow : (2 : ℚ) ^ type.subnormalExponent =
      2 ^ (type.subnormalExponent - shift) * 2 ^ shift := by
    rw [← zpow_natCast, ← zpow_add₀ two_ne_zero, sub_add_cancel]
  have hvalue :
      type.format.value b = (b * 2 ^ shift : ℕ) * 2 ^ (type.subnormalExponent - shift) := by
    rw [Format.value, hulp, Format.significand, if_pos hfield, hb', hpow]
    push_cast
    ring
  have hnarrow : (2 : ℚ) ^ (type.subnormalExponent - shift) / 2 <
      2 ^ type.subnormalExponent / 2 := by
    have hone : (1 : ℚ) < 2 ^ shift := one_lt_pow₀ (by norm_num) hshift.ne'
    have hpos : (0 : ℚ) < 2 ^ (type.subnormalExponent - shift) := zpow_pos two_pos _
    rw [hpow]
    exact div_lt_div_of_pos_right (lt_mul_of_one_lt_right hpos hone) two_pos
  have hinside : ∀ x,
    Below (b * 2 ^ shift % 2 == 0) ((b * 2 ^ shift : ℕ) * 2 ^ (type.subnormalExponent - shift) -
      lowGapOf type (b * 2 ^ shift) (type.subnormalExponent - shift)) x →
      Below (b * 2 ^ shift % 2 == 0) x ((b * 2 ^ shift : ℕ) * 2 ^ (type.subnormalExponent - shift) +
        2 ^ (type.subnormalExponent - shift) / 2) → InRoundingInterval type.format b x := by
    intro x h h'
    rw [← hvalue] at h h'
    have hlt := (lowGapOf_le type (b * 2 ^ shift) (type.subnormalExponent - shift)).trans_lt hnarrow
    rw [← hulp'] at hlt
    rw [← hulp] at hnarrow
    exact inRoundingInterval_of_narrow (Nat.pos_of_ne_zero hb) h h'
      (.inr ⟨hlt, hnarrow⟩) hlt.le hnarrow.le
  refine ⟨b * 2 ^ shift, type.subnormalExponent - shift, haligned, hvalue, ?_, .inr ?_⟩
  · have := subnormalExponent_le type
    omega
  by_cases hf : b * 2 ^ shift = 2 ^ (type.digits - 1)
  · right
    have hle : shift ≤ type.digits - 1 := by
      refine (Nat.pow_le_pow_iff_right (by norm_num : 1 < 2)).1 ?_
      rw [← hf]
      exact Nat.le_mul_of_pos_left _ (Nat.pos_of_ne_zero hb)
    refine ⟨type.digits - 1 - shift, by omega, ?_, hf, by omega, fun _ => hinside⟩
    refine Nat.eq_of_mul_eq_mul_right (Nat.two_pow_pos shift) ?_
    rw [hf, ← pow_add, Nat.sub_add_cancel hle]
  · refine .inl ⟨fun j hj => hf ?_, hinside, if_neg fun h => hf h.1⟩
    -- A power of two stays one when it is moved.
    rw [hbdef, hj, ← pow_add] at hlow hhigh ⊢
    have hle := (Nat.pow_le_pow_iff_right (by norm_num : 1 < 2)).1 hlow
    have hlt := (Nat.pow_lt_pow_iff_right (by norm_num : 1 < 2)).1 hhigh
    congr 1
    omega

/-- The lower gap of a float with an exponent field is the half of the gap to the float below, but
for the least of them and for twice this one. -/
theorem lowGapOf_cases (hfield : type.format.field b ≠ 0) :
    lowGapOf type (type.format.significand b)
      (type.format.exponent b) = type.format.ulp (b - 1) / 2 ∨ (b = 2 ^ (type.digits - 1) ∧
        lowGapOf type (type.format.significand b)
          (type.format.exponent b) = type.format.ulp (b - 1) / 4) ∨
      (b = 2 ^ type.digits ∧
        lowGapOf type (type.format.significand b)
          (type.format.exponent b) = type.format.ulp (b - 1)) := by
  have hb : 0 < b := Nat.pos_of_ne_zero fun h0 => hfield (by rw [h0, Format.field, Nat.zero_div])
  have hcases := succ_cases type.format (b - 1)
  rw [Nat.sub_add_cancel hb] at hcases
  have hdigits := field_fraction type.format b
  rw [format_digits] at hdigits
  have hexp : type.format.exponent b = type.subnormalExponent + (type.format.field b - 1 : ℕ) := by
    rw [Format.exponent, format_minExponent]
  have hexp' : type.format.exponent (b - 1) =
      type.subnormalExponent + (type.format.field (b - 1) - 1 : ℕ) := by
    rw [Format.exponent, format_minExponent]
  have hsignificand :
      type.format.significand b = 2 ^ (type.digits - 1) + type.format.fraction b := by
    rw [Format.significand, if_neg hfield, format_digits]
  have hminE := minE_eq type
  unfold lowGapOf Format.ulp
  by_cases hfraction : type.format.fraction b = 0
  · rw [hfraction, Nat.add_zero] at hsignificand hdigits
    obtain h1 | h2 | h3 : type.format.field b = 1 ∨ type.format.field b = 2 ∨
        3 ≤ type.format.field b := by omega
    · right
      left
      rw [h1, Nat.one_mul] at hdigits
      rw [if_pos ⟨hsignificand, by omega⟩, show type.format.exponent (b - 1) =
        type.format.exponent b by omega]
      exact ⟨hdigits.symm, rfl⟩
    · right
      right
      rw [h2, ← pow_succ', Nat.sub_add_cancel (by cases type <;> decide)] at hdigits
      rw [if_neg fun h => h.2 (by omega),
        show type.format.exponent b = type.format.exponent (b - 1) + 1 by omega,
        zpow_add_one₀ two_ne_zero]
      exact ⟨hdigits.symm, by ring⟩
    · left
      rw [if_pos ⟨hsignificand, by omega⟩,
        show type.format.exponent b = type.format.exponent (b - 1) + 1 by omega,
        zpow_add_one₀ two_ne_zero]
      ring
  · left
    rw [if_neg fun h => by omega, show type.format.exponent (b - 1) =
      type.format.exponent b by omega]

theorem aligned_normal (hfinite : IsFinite type bits)
    (hfield : type.format.field (ordinal type bits) ≠ 0) : ∃ f e, Aligned type bits f e := by
  refine ⟨_, _, leftAligned_normal type hfinite hfield, rfl, exponent_le type hfinite, ?_⟩
  set b := ordinal type bits with hbdef
  have hsignificand :
      type.format.significand b = 2 ^ (type.digits - 1) + type.format.fraction b := by
    rw [Format.significand, if_neg hfield, format_digits]
  have hb : 0 < b := Nat.pos_of_ne_zero fun h0 => hfield (by rw [h0, Format.field, Nat.zero_div])
  have hcases := succ_cases type.format (b - 1)
  rw [Nat.sub_add_cancel hb] at hcases
  have hdigits : b = type.format.field b * 2 ^ (type.digits - 1) + type.format.fraction b := by
    rw [← format_digits]
    exact (field_fraction _ b).symm
  have hexp : type.format.exponent b = type.subnormalExponent + (type.format.field b - 1 : ℕ) := by
    rw [Format.exponent, format_minExponent]
  have hexp' : type.format.exponent (b - 1) =
      type.subnormalExponent + (type.format.field (b - 1) - 1 : ℕ) := by
    rw [Format.exponent, format_minExponent]
  have hulp : type.format.ulp b = 2 ^ type.format.exponent b := rfl
  have hulp' : type.format.ulp (b - 1) = 2 ^ type.format.exponent (b - 1) := rfl
  by_cases hfraction : type.format.fraction b = 0
  · rw [hfraction, Nat.add_zero] at hsignificand hdigits
    obtain h1 | h2 | h3 : type.format.field b = 1 ∨ type.format.field b = 2 ∨
        3 ≤ type.format.field b := by omega
    · right
      right
      rw [h1, Nat.one_mul] at hdigits
      have hequal : type.format.exponent (b - 1) = type.format.exponent b := by omega
      refine ⟨type.digits - 1, Nat.sub_le _ _, hdigits, hsignificand, by omega, fun _ x h h' => ?_⟩
      refine inRoundingInterval_of_narrow hb h h' (.inl rfl) ?_ ?_
      · rw [hulp', hequal]
        exact lowGapOf_le type _ _
      · rw [hulp]
    · right
      right
      rw [h2, ← pow_succ', Nat.sub_add_cancel (by cases type <;> decide)] at hdigits
      have hone : 1 ≤ type.digits := by cases type <;> decide
      exact ⟨type.digits, le_rfl, hdigits, hsignificand, by omega, fun h => absurd h (lt_irrefl _)⟩
    · left
      refine ⟨hfield, fun x => ?_⟩
      have hminE : type.format.exponent b ≠ type.minE := by
        rw [minE_eq]
        omega
      have hlow : lowGapOf type (type.format.significand b) (type.format.exponent b) =
          type.format.ulp (b - 1) / 2 := by
        rw [lowGapOf, if_pos ⟨hsignificand, hminE⟩, hulp',
          show type.format.exponent b = type.format.exponent (b - 1) + 1 by
          omega, zpow_add_one₀ two_ne_zero]
        ring
      rw [inRoundingInterval_iff hb, hlow]
      rfl
  · left
    refine ⟨hfield, fun x => ?_⟩
    have hequal : type.format.exponent (b - 1) = type.format.exponent b := by omega
    have hlow : lowGapOf type (type.format.significand b) (type.format.exponent b) =
        type.format.ulp (b - 1) / 2 := by
      rw [lowGapOf, if_neg, hulp', hequal]
      rintro ⟨h, -⟩
      omega
    rw [inRoundingInterval_iff hb, hlow]
    rfl

end Sbcl.Printer
