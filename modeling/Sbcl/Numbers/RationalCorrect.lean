import Mathlib.Data.Rat.Floor
import Mathlib.RingTheory.Coprime.Lemmas
import Sbcl.Bignum.TruncateCorrect
import Sbcl.Numbers.Rational

/-!
# Rational arithmetic: exact and canonical

* `Canonical`, `value` : what a rational stands for;
* `gcd_split` : the operands of a gcd without it;
* `twoArgAddSub_returns`, `twoArgMul_returns`, `twoArgDiv_returns` : each operation, with Knuth's
  shortcuts;
* `rational_arithmetic` : all of them, and the quotients with their remainders.
-/

namespace Sbcl.Numbers

open SbBignum Rational Option Int

variable {v : ℚ} {d m n s : ℤ}

/-! ## Values -/

namespace Rational

def Canonical : Rational → Prop
  | integer _ => True
  | ratio n d => 1 < d ∧ IsCoprime n d

def value : Rational → ℚ
  | integer n => n
  | ratio n d => n / d

theorem value_eq (x : Rational) : x.value = x.numerator / x.denominator := by
  cases x with
  | integer n => simp [value, numerator, denominator]
  | ratio n d => rfl

theorem Canonical.denominator_pos {x : Rational} (hx : x.Canonical) : 0 < x.denominator := by
  cases x with
  | integer n => exact one_pos
  | ratio n d => exact one_pos.trans hx.1

theorem Canonical.numerator_ne_zero (h : (ratio n d).Canonical) : n ≠ 0 := by
  rintro rfl
  have := isCoprime_zero_left.1 h.2
  have := h.1
  rcases isUnit_iff.1 ‹IsUnit d› with h | h <;> omega

end Rational

/-- A canonical result with the value `v`. -/
def Returns (result : Option Rational) (v : ℚ) : Prop :=
  ∃ r : Rational, result = some r ∧ r.Canonical ∧ r.value = v

theorem returns_integer (h : (n : ℚ) = v) : Returns (some (integer n)) v := ⟨_, rfl, trivial, h⟩

theorem returns_ratio (hd : 1 < d) (hnd : IsCoprime n d) (h : (n / d : ℚ) = v) :
    Returns (some (ratio n d)) v := ⟨_, rfl, ⟨hd, hnd⟩, h⟩

theorem buildRatio_returns {num den : ℤ} (hden : den ≠ 0) (h : IsCoprime num den)
    (hv : (num / den : ℚ) = v) : Returns (buildRatio num den) v := by
  have hgo : ∀ {n d : ℤ}, 0 < d → IsCoprime n d → (n / d : ℚ) = v →
      Returns (if d = 0 then none else if d = 1 then some (integer n) else some (ratio n d)) v := by
    intro n d hd hnd hv
    rw [if_neg hd.ne']
    split
    · subst d
      exact returns_integer (by rw [← hv, cast_one, div_one])
    · exact returns_ratio (by omega) hnd hv
  unfold buildRatio minusp
  by_cases hneg : den < 0
  · simp only [hneg, decide_true, if_true]
    exact hgo (by omega) h.neg_neg (by rw [← hv]; push_cast; rw [neg_div_neg_eq])
  · simp only [hneg, decide_false, Bool.false_eq_true, if_false]
    exact hgo (by omega) h hv

theorem fixnumGcdLoop_eq {u v : ℕ} (hv : v ≠ 0) : fixnumGcdLoop u v = Nat.gcd u v := by
  induction v using Nat.strong_induction_on generalizing u with
  | _ v ih =>
    rw [fixnumGcdLoop, if_neg hv, Nat.gcd_comm, Nat.gcd_rec]
    by_cases hrem : u % v = 0
    · rw [if_pos hrem, hrem, Nat.gcd_zero_left]
    · rw [if_neg hrem, ih _ (Nat.mod_lt u (Nat.pos_of_ne_zero hv)) hrem, Nat.gcd_comm]

/-- The gcd of bignums, as the other module computes it. -/
def LawfulGcd (bignumGcd : ℤ → ℤ → ℤ) : Prop :=
  ∀ u v, u ≠ 0 → v ≠ 0 → ¬(fixnump u = true ∧ fixnump v = true) → bignumGcd u v = Int.gcd u v

section
variable {bignumGcd : ℤ → ℤ → ℤ} (hgcd : LawfulGcd bignumGcd)
include hgcd

theorem gcd_eq (u v : ℤ) : gcd bignumGcd u v = Int.gcd u v := by
  unfold gcd
  by_cases hu : u = 0
  · rw [if_pos hu, hu, Int.gcd_zero_left, natCast_natAbs]
  rw [if_neg hu]
  by_cases hv : v = 0
  · rw [if_pos hv, hv, Int.gcd_zero_right, natCast_natAbs]
  rw [if_neg hv]
  split
  · rw [fixnumGcd, if_neg hu, if_neg hv, fixnumGcdLoop_eq (natAbs_ne_zero.2 hv)]
    rfl
  · exact hgcd u v hu hv (by rwa [← Bool.and_eq_true])

theorem gcd_split {u v : ℤ} (h : u ≠ 0 ∨ v ≠ 0) :
    ∃ a b g, gcd bignumGcd u v = g ∧ 0 < g ∧ u = a * g ∧ v = b * g ∧ IsCoprime a b := by
  have hpos : 0 < Int.gcd u v := gcd_pos_iff.2 h
  obtain ⟨a, b, hab, hu, hv⟩ := exists_gcd_one hpos
  exact ⟨a, b, Int.gcd u v, gcd_eq hgcd u v, by exact_mod_cast hpos, hu, hv,
    isCoprime_iff_gcd_eq_one.2 hab⟩

end

theorem truncate1_mul {a g : ℤ} (hg : 0 < g) : truncate1 (a * g) g = some a := by
  rw [truncate1, truncateInteger, if_neg hg.ne', map_some, mul_tdiv_cancel _ hg.ne']

theorem maybeTruncate_mul {a g : ℤ} (hg : 0 < g) : maybeTruncate (a * g) g = some a := by
  unfold maybeTruncate
  split
  · subst g
    rw [mul_one]
  · exact truncate1_mul hg

/-! ## Sums and products -/

section
variable {bignumGcd : ℤ → ℤ → ℤ} (hgcd : LawfulGcd bignumGcd)
include hgcd

omit hgcd in
/-- A sum over a common denominator has no factor with a denominator that the other one does not
have. -/
theorem sum_isCoprime {s nx ny a b : ℤ} (hs : IsCoprime s b) (hnx : IsCoprime nx a)
    (hny : IsCoprime ny b)
    (hab : IsCoprime a b) : IsCoprime (nx * b + s * (a * ny)) a ∧
    IsCoprime (nx * b + s * (a * ny)) b := by
  refine ⟨?_, ?_⟩
  · rw [show s * (a * ny) = a * (s * ny) by ring]
    exact IsCoprime.add_mul_left_left (hnx.mul_left hab.symm) (s * ny)
  · exact IsCoprime.mul_add_right_left (hs.mul_left (hab.mul_left hny)) nx

theorem twoArgAddSub_returns {op : ℤ → ℤ → ℤ} (hs : s * s = 1) (hop : ∀ a b, op a b = a + s * b)
    {x y : Rational}
    (hx : x.Canonical) (hy : y.Canonical) :
    Returns (twoArgAddSub bignumGcd op x y) (x.value + s * y.value) := by
  have hunit (a : ℤ) : IsCoprime s a := ⟨s, 0, by rw [hs]; ring⟩
  match x, y, hx, hy with
  | integer x, integer y, _, _ => exact returns_integer (by rw [hop]; push_cast; rfl)
  | integer x, ratio ny dy, _, ⟨hdy, hy⟩ =>
    refine returns_ratio hdy ?_ ?_
    · rw [hop]
      exact IsCoprime.mul_add_right_left ((hunit dy).mul_left hy) x
    rw [hop]
    push_cast
    simp only [value]
    field_simp
  | ratio nx dx, integer y, ⟨hdx, hx⟩, _ =>
    refine returns_ratio hdx ?_ ?_
    · rw [hop, ← mul_assoc]
      exact IsCoprime.add_mul_right_left hx (s * y)
    rw [hop]
    push_cast
    simp only [value]
    field_simp
  | ratio nx dx, ratio ny dy, ⟨hdx, hx⟩, ⟨hdy, hy⟩ =>
    obtain ⟨a, b, g1, hg1, hpos1, rfl, rfl, hab⟩ :=
      gcd_split hgcd (.inl (by omega) : dx ≠ 0 ∨ dy ≠ 0)
    have ha : 0 < a := pos_of_mul_pos_left (by omega) hpos1.le
    have hb : 0 < b := pos_of_mul_pos_left (by omega) hpos1.le
    obtain ⟨hta, htb⟩ := sum_isCoprime (hunit b) hx.of_mul_right_left hy.of_mul_right_left hab
    unfold twoArgAddSub
    dsimp only
    rw [hg1]
    by_cases h1 : g1 = 1
    · subst g1
      rw [if_pos rfl, hop]
      simp only [mul_one] at hdx hdy ⊢
      refine returns_ratio (by nlinarith) (hta.mul_right htb) ?_
      simp only [value]
      push_cast
      field_simp
    · rw [if_neg h1, truncate1_mul hpos1, truncate1_mul hpos1, bind_eq_bind, bind_some,
        bind_some, hop]
      generalize hc : nx * b + s * (a * ny) = t1 at hta htb ⊢
      have hvalue : (ratio nx (a * g1)).value + s * (ratio ny (b * g1)).value =
          t1 / (a * (b * g1)) := by
        rw [← hc]
        simp only [value]
        push_cast
        field_simp
      obtain ⟨c, d, g2, hg2, hpos2, rfl, rfl, hcd⟩ :=
        gcd_split hgcd (.inr hpos1.ne' : t1 ≠ 0 ∨ g1 ≠ 0)
      have hd : 0 < d := pos_of_mul_pos_left hpos1 hpos2.le
      rw [hg2, hvalue]
      by_cases h0 : c * g2 = 0
      · rw [if_pos h0]
        exact returns_integer (by rw [h0]; simp)
      rw [if_neg h0]
      by_cases h2 : g2 = 1
      · subst g2
        rw [if_pos rfl]
        simp only [mul_one] at hta htb hdy ⊢
        exact returns_ratio (by nlinarith) (hta.mul_right (htb.mul_right hcd)) (by push_cast; rfl)
      have hnd : (if a = 1 then b * d else a * (b * d)) = a * (b * d) := by
        split
        · subst a
          rw [one_mul]
        · rfl
      have hcoprime : IsCoprime c (a * (b * d)) :=
        hta.of_mul_left_left.mul_right (htb.of_mul_left_left.mul_right hcd)
      have hv : (c : ℚ) / (a * (b * d) : ℤ) = (c * g2 : ℤ) / (a * (b * (d * g2 : ℤ))) := by
        push_cast
        field_simp
      rw [if_neg h2, truncate1_mul hpos2, ← mul_assoc b d g2, truncate1_mul hpos2, bind_some,
        bind_some, hnd]
      split
      · rename_i h
        exact returns_integer (by rw [← hv, h]; simp)
      · have : 0 < a * (b * d) := by positivity
        exact returns_ratio (by omega) hcoprime hv

theorem integerTimesRatio_returns (x : ℤ) {ny dy : ℤ} (hy : (ratio ny dy).Canonical) :
    Returns (integerTimesRatio bignumGcd x ny dy) (x * (ratio ny dy).value) := by
  obtain ⟨hdy, hcoprime⟩ := hy
  unfold integerTimesRatio
  by_cases hx : x = 0
  · rw [if_pos hx]
    exact returns_integer (by rw [hx]; simp)
  rw [if_neg hx]
  obtain ⟨a, b, g, hg, hpos, rfl, rfl, hab⟩ := gcd_split hgcd (.inl hx : x ≠ 0 ∨ dy ≠ 0)
  have hb : 0 < b := pos_of_mul_pos_left (by omega) hpos.le
  have hcop : IsCoprime (a * ny) b := hab.mul_left hcoprime.of_mul_right_left
  have hv : ((a * ny : ℤ) : ℚ) / b = (a * g : ℤ) * (ratio ny (b * g)).value := by
    simp only [value]
    push_cast
    field_simp
  rw [hg]
  by_cases h1 : g = 1
  · subst g
    rw [if_pos rfl]
    simp only [mul_one] at hdy hv ⊢
    exact returns_ratio hdy hcop hv
  rw [if_neg h1, truncate1_mul hpos, truncate1_mul hpos, bind_eq_bind, bind_some, bind_some]
  split
  · rename_i h
    exact returns_integer (by rw [← hv, h, cast_one, div_one])
  · exact returns_ratio (by omega) hcop hv

theorem twoArgMul_returns {x y : Rational} (hx : x.Canonical) (hy : y.Canonical) :
    Returns (twoArgMul bignumGcd x y) (x.value * y.value) := by
  match x, y, hx, hy with
  | integer x, integer y, _, _ => exact returns_integer (by push_cast; rfl)
  | integer x, ratio ny dy, _, hy => exact integerTimesRatio_returns hgcd x hy
  | ratio nx dx, integer y, hx, _ =>
    rw [mul_comm]
    exact integerTimesRatio_returns hgcd y hx
  | ratio nx dx, ratio ny dy, ⟨hdx, hx⟩, ⟨hdy, hy⟩ =>
    obtain ⟨a, b, g1, hg1, hpos1, rfl, rfl, hab⟩ :=
      gcd_split hgcd (.inr (by omega) : nx ≠ 0 ∨ dy ≠ 0)
    obtain ⟨c, d, g2, hg2, hpos2, rfl, rfl, hcd⟩ :=
      gcd_split hgcd (.inl (by omega) : dx ≠ 0 ∨ ny ≠ 0)
    have hb : 0 < b := pos_of_mul_pos_left (by omega) hpos1.le
    have hc : 0 < c := pos_of_mul_pos_left (by omega) hpos2.le
    unfold twoArgMul
    dsimp only
    rw [hg1, hg2]
    simp only [maybeTruncate_mul hpos1, maybeTruncate_mul hpos2, bind_eq_bind, bind_some]
    have hac : IsCoprime a c := hx.of_mul_left_left.of_mul_right_left
    have hdb : IsCoprime d b := hy.of_mul_left_left.of_mul_right_left
    refine buildRatio_returns (mul_pos hc hb).ne'
      ((hac.mul_left hcd.symm).mul_right (hab.mul_left hdb)) ?_
    simp only [value]
    push_cast
    field_simp

/-! ## Quotients -/

omit hgcd in
theorem dividedByGcd_mul {a b g : ℤ} (hg : 0 < g) :
    dividedByGcd (a * g) (b * g) g = some (a, b) := by
  unfold dividedByGcd
  split
  · subst g
    rw [mul_one, mul_one]
  · rw [truncate1_mul hg, truncate1_mul hg]
    rfl

theorem divided_returns {x y g : ℤ} (hy : y ≠ 0) (hg : g = Int.gcd x y) :
    ∃ num den, dividedByGcd x y g = some (num, den) ∧ Returns (buildRatio num den) (x / y) := by
  obtain ⟨a, b, g', hg', hpos, rfl, rfl, hab⟩ := gcd_split hgcd (.inr hy : x ≠ 0 ∨ y ≠ 0)
  rw [gcd_eq hgcd, ← hg] at hg'
  subst g'
  have hb : b ≠ 0 := left_ne_zero_of_mul hy
  have hpos' : (g : ℚ) ≠ 0 := by exact_mod_cast hpos.ne'
  refine ⟨a, b, dividedByGcd_mul hpos, buildRatio_returns hb hab ?_⟩
  push_cast
  rw [mul_div_mul_right _ _ hpos']

theorem integerDivInteger_returns (x : ℤ) {y : ℤ} (hy : y ≠ 0) :
    Returns (integerDivInteger bignumGcd x y) (x / y) := by
  unfold integerDivInteger
  split
  · by_cases hx : x = 0
    · rw [if_pos hx]
      exact returns_integer (by rw [hx]; simp)
    rw [if_neg hx]
    dsimp only
    split
    · rw [truncateInteger, if_neg hx, bind_eq_bind, bind_some]
      dsimp only
      by_cases hrem : y.tmod x = 0
      · rw [if_pos hrem]
        have hq : x * y.tdiv x = y := mul_tdiv_cancel_of_tmod_eq_zero hrem
        have hq0 : y.tdiv x ≠ 0 := fun h => hy (by rw [← hq, h, mul_zero])
        refine buildRatio_returns hq0 isCoprime_one_left ?_
        conv_rhs => rw [← hq]
        push_cast
        field_simp
      · rw [if_neg hrem]
        obtain ⟨num, den, heq, h⟩ := divided_returns hgcd (g := gcd bignumGcd x (y.tmod x)) hy (by
          rw [gcd_eq hgcd, tmod_def, gcd_sub_mul_left_right])
        rw [heq]
        exact h
    · rw [truncateInteger, if_neg hy, bind_eq_bind, bind_some]
      by_cases hrem : x.tmod y = 0
      · rw [if_pos hrem]
        have hq : y * x.tdiv y = x := mul_tdiv_cancel_of_tmod_eq_zero hrem
        refine returns_integer ?_
        conv_rhs => rw [← hq]
        push_cast
        field_simp
      · rw [if_neg hrem]
        obtain ⟨num, den, heq, h⟩ := divided_returns hgcd (g := gcd bignumGcd y (x.tmod y)) hy (by
          rw [gcd_eq hgcd, tmod_def, gcd_sub_mul_left_right, Int.gcd_comm])
        rw [heq]
        exact h
  · obtain ⟨num, den, heq, h⟩ := divided_returns hgcd hy (gcd_eq hgcd x y)
    rw [heq]
    exact h

theorem twoArgDiv_returns {x y : Rational} (hx : x.Canonical) (hy : y.Canonical)
    (hy0 : y ≠ integer 0) : Returns (twoArgDiv bignumGcd x y) (x.value / y.value) := by
  match x, y, hx, hy with
  | integer x, integer y, _, _ =>
    exact integerDivInteger_returns hgcd x fun h => hy0 (congrArg integer h)
  | integer x, ratio ny dy, _, hy =>
    have hny := hy.numerator_ne_zero
    obtain ⟨hdy, hy⟩ := hy
    unfold twoArgDiv
    dsimp only
    by_cases hx : x = 0
    · rw [if_pos hx]
      exact returns_integer (by rw [hx]; simp [value])
    obtain ⟨a, b, g, hg, hpos, rfl, rfl, hab⟩ := gcd_split hgcd (.inl hx : x ≠ 0 ∨ ny ≠ 0)
    have hb : b ≠ 0 := left_ne_zero_of_mul hny
    have hg' : (g : ℚ) ≠ 0 := by exact_mod_cast hpos.ne'
    have hb' : (b : ℚ) ≠ 0 := by exact_mod_cast hb
    rw [if_neg hx, hg]
    simp only [maybeTruncate_mul hpos, bind_eq_bind, bind_some]
    refine buildRatio_returns hb (hab.mul_left hy.of_mul_left_left.symm) ?_
    simp only [value]
    push_cast
    field_simp
  | ratio nx dx, integer y, hx, _ =>
    have hnx := hx.numerator_ne_zero
    obtain ⟨hdx, hx⟩ := hx
    have hy : y ≠ 0 := fun h => hy0 (congrArg integer h)
    obtain ⟨a, b, g, hg, hpos, rfl, rfl, hab⟩ := gcd_split hgcd (.inl hnx : nx ≠ 0 ∨ y ≠ 0)
    have hb : b ≠ 0 := left_ne_zero_of_mul hy
    have hb' : (b : ℚ) ≠ 0 := by exact_mod_cast hb
    unfold twoArgDiv
    dsimp only
    rw [hg]
    simp only [maybeTruncate_mul hpos, bind_eq_bind, bind_some]
    refine buildRatio_returns (mul_ne_zero hb (by omega)) (hab.mul_right hx.of_mul_left_left) ?_
    simp only [value]
    push_cast
    field_simp
  | ratio nx dx, ratio ny dy, hx, hy =>
    have hny := hy.numerator_ne_zero
    obtain ⟨hdx, hx⟩ := hx
    obtain ⟨hdy, hy⟩ := hy
    obtain ⟨a, b, g1, hg1, hpos1, rfl, rfl, hab⟩ := gcd_split hgcd (.inr hny : nx ≠ 0 ∨ ny ≠ 0)
    obtain ⟨c, d, g2, hg2, hpos2, rfl, rfl, hcd⟩ :=
      gcd_split hgcd (.inl (by omega) : dx ≠ 0 ∨ dy ≠ 0)
    have hb : b ≠ 0 := left_ne_zero_of_mul hny
    have hc : 0 < c := pos_of_mul_pos_left (by omega) hpos2.le
    unfold twoArgDiv
    dsimp only
    rw [hg1, hg2]
    simp only [maybeTruncate_mul hpos1, maybeTruncate_mul hpos2, bind_eq_bind, bind_some]
    have hac : IsCoprime a c := hx.of_mul_left_left.of_mul_right_left
    have hdb : IsCoprime d b := hy.of_mul_left_left.of_mul_right_left.symm
    refine buildRatio_returns (mul_ne_zero hc.ne' hb)
      ((hac.mul_left hcd.symm).mul_right (hab.mul_left hdb)) ?_
    simp only [value]
    push_cast
    field_simp

omit hgcd in
theorem maybeTruncate_zero (g : ℤ) : maybeTruncate 0 g = some 0 ∨ maybeTruncate 0 g = none := by
  unfold maybeTruncate truncate1 truncateInteger
  split
  · exact .inl rfl
  · split
    · exact .inr rfl
    · exact .inl (by simp)

omit hgcd in
theorem twoArgDiv_zero (x : Rational) : twoArgDiv bignumGcd x (integer 0) = none := by
  cases x with
  | integer x =>
    change integerDivInteger bignumGcd x 0 = none
    unfold integerDivInteger
    split
    · rfl
    rename_i hfix
    have hden : ∀ g num den, dividedByGcd x 0 g = some (num, den) → den = 0 := by
      intro g num den h
      unfold dividedByGcd at h
      split at h
      · exact (Prod.mk.inj (some_inj.1 h)).2.symm
      unfold truncate1 truncateInteger at h
      split at h
      · cases h
      · simp at h
        exact h.2.symm
    cases h : dividedByGcd x 0 (gcd bignumGcd x 0) with
    | none => rfl
    | some r =>
      obtain ⟨num, den⟩ := r
      obtain rfl := hden _ _ _ h
      rfl
  | ratio nx dx =>
    unfold twoArgDiv
    dsimp only
    cases maybeTruncate nx (gcd bignumGcd nx 0) with
    | none => rfl
    | some num =>
      rcases maybeTruncate_zero (gcd bignumGcd nx 0) with h | h
      · rw [h, bind_eq_bind, bind_some, bind_some, zero_mul]
        rfl
      · rw [h]
        rfl

end

/-! ## Quotients that are integers -/

/-- The quotient is the one that the rounding `R` asks for, and the remainder is exact. -/
def Divides (R : ℚ → ℤ → Prop) (result : Option (ℤ × Rational)) (x y : ℚ) : Prop :=
  ∃ (q : ℤ) (r : Rational), result = some (q, r) ∧ r.Canonical ∧ r.value = x - q * y ∧ R (x / y) q

/-- Towards zero. -/
def Truncated (v : ℚ) (q : ℤ) : Prop := q = if 0 ≤ v then ⌊v⌋ else ⌈v⌉

def Floored (v : ℚ) (q : ℤ) : Prop := q = ⌊v⌋

def Ceiled (v : ℚ) (q : ℤ) : Prop := q = ⌈v⌉

/-- To the nearest integer, and between two of them to the even one. -/
def Rounded (v : ℚ) (q : ℤ) : Prop := |v - q| ≤ 1 / 2 ∧ (|v - q| = 1 / 2 → Even q)

/-- A quotient of integers, with its rounding. -/
def DividesInteger (R : ℚ → ℤ → Prop) (f : ℤ → ℤ → Option (ℤ × ℤ)) : Prop :=
  (∀ a, f a 0 = none) ∧ ∀ a b, b ≠ 0 → ∃ q r, f a b = some (q, r) ∧ a = q * b + r ∧ R (a / b) q

/-- The quotient of rationals, by way of a quotient of integers. -/
def quotientBy (bignumGcd : ℤ → ℤ → ℤ) (f : ℤ → ℤ → Option (ℤ × ℤ)) (number divisor : Rational) :
    Option (ℤ × Rational) :=
  match number, divisor with
  | integer number, integer divisor => do
      let (q, rem) ← f number divisor
      some (q, integer rem)
  | ratio numerator denominator, integer divisor => do
      let (q, rem) ← f numerator (denominator * divisor)
      some (q, ratio rem denominator)
  | number, ratio dNum dDen => do
      let (q, rem) ← f (number.numerator * dDen) (number.denominator * dNum)
      some (q, ← twoArgDiv bignumGcd (integer rem) (integer (number.denominator * dDen)))

section
variable {bignumGcd : ℤ → ℤ → ℤ} {R : ℚ → ℤ → Prop} {f : ℤ → ℤ → Option (ℤ × ℤ)}

theorem quotientBy_zero (hf : DividesInteger R f) (x : Rational) :
    quotientBy bignumGcd f x (integer 0) = none := by
  cases x with
  | integer x =>
    unfold quotientBy
    dsimp only
    rw [hf.1]
    rfl
  | ratio nx dx =>
    unfold quotientBy
    dsimp only
    rw [mul_zero, hf.1]
    rfl

theorem quotientBy_divides (hgcd : LawfulGcd bignumGcd) (hf : DividesInteger R f) {x y : Rational}
    (hx : x.Canonical)
    (hy : y.Canonical) (hy0 : y ≠ integer 0) :
    Divides R (quotientBy bignumGcd f x y) x.value y.value := by
  -- a quotient by a ratio, whatever the number is
  have hratio : ∀ {ny dy : ℤ}, (ratio ny dy).Canonical → Divides R (do
      let (q, rem) ← f (x.numerator * dy) (x.denominator * ny)
      some (q, ← twoArgDiv bignumGcd (integer rem) (integer (x.denominator * dy)))) x.value
        (ratio ny dy).value := by
    intro ny dy hy
    have hny := hy.numerator_ne_zero
    have hdy : dy ≠ 0 := (one_pos.trans hy.1).ne'
    have hdx := hx.denominator_pos.ne'
    obtain ⟨q, r, heq, hqr, hR⟩ :=
      hf.2 (x.numerator * dy) (x.denominator * ny) (mul_ne_zero hdx hny)
    obtain ⟨r', hr', hcanonical, hvalue⟩ := twoArgDiv_returns hgcd (x := integer r)
      (y := integer (x.denominator * dy)) trivial trivial fun h =>
      mul_ne_zero hdx hdy (integer.inj h)
    have hqr' : (x.numerator : ℚ) * dy = q * (x.denominator * ny) + r := by exact_mod_cast hqr
    refine ⟨q, r', ?_, hcanonical, ?_, ?_⟩
    · rw [heq, bind_eq_bind, bind_some]
      dsimp only
      rw [hr']
      rfl
    · rw [hvalue, value_eq x]
      simp only [value]
      push_cast
      field_simp
      linear_combination -hqr'
    · rw [value_eq x]
      simp only [value]
      push_cast at hR
      rwa [div_div_div_eq]
  match y, hy with
  | ratio ny dy, hy => 
    cases x with
    | integer n => exact hratio hy
    | ratio n d => exact hratio hy
  | integer y, _ =>
    have hy : y ≠ 0 := fun h => hy0 (congrArg integer h)
    cases x with
    | integer n =>
      obtain ⟨q, r, heq, hqr, hR⟩ := hf.2 n y hy
      refine ⟨q, integer r, ?_, trivial, ?_, hR⟩
      · unfold quotientBy
        dsimp only
        rw [heq]
        rfl
      · simp only [value]
        rw [hqr]
        push_cast
        ring
    | ratio n d =>
      obtain ⟨hd, hnd⟩ := hx
      have hd0 : d ≠ 0 := by omega
      obtain ⟨q, r, heq, hqr, hR⟩ := hf.2 n (d * y) (mul_ne_zero hd0 hy)
      have hr : r = n + d * (-(q * y)) := by linear_combination -hqr
      refine ⟨q, ratio r d, ?_, ⟨hd, ?_⟩, ?_, ?_⟩
      · unfold quotientBy
        dsimp only
        rw [heq]
        rfl
      · rw [hr]
        exact hnd.add_mul_left_left _
      · simp only [value]
        rw [hr]
        push_cast
        field_simp
        ring
      · simp only [value]
        push_cast at hR
        rwa [div_div]

end

/-! ## Integer quotients -/

/-- `floor` of two integers. -/
def floorInteger (number divisor : ℤ) : Option (ℤ × ℤ) := do
  let (tru, rem) ← truncateInteger number divisor
  if (if minusp divisor then rem > 0 else rem < 0) then some (tru - 1,
    rem + divisor) else some (tru, rem)

/-- `ceiling` of two integers. -/
def ceilingInteger (number divisor : ℤ) : Option (ℤ × ℤ) := do
  let (tru, rem) ← truncateInteger number divisor
  if (if minusp divisor then rem < 0 else rem > 0) then some (tru + 1,
    rem - divisor) else some (tru, rem)

section
variable {a b q r : ℤ}

theorem quotient_add (hb : b ≠ 0) (h : a = q * b + r) : (a : ℚ) / b = q + r / b := by
  rw [h]
  push_cast
  field_simp

theorem remainder_bounds (h : 0 ≤ r ∧ r < b ∨ b < r ∧ r ≤ 0) : 0 ≤ (r : ℚ) / b ∧
    (r : ℚ) / b < 1 := by
  rcases h with ⟨h0, h1⟩ | ⟨h1, h0⟩
  · have hb : (0 : ℚ) < b := by exact_mod_cast h0.trans_lt h1
    have h0' : (0 : ℚ) ≤ r := by exact_mod_cast h0
    exact ⟨div_nonneg h0' hb.le, (div_lt_one hb).2 (by exact_mod_cast h1)⟩
  · have hb : (b : ℚ) < 0 := by exact_mod_cast h1.trans_le h0
    have h0' : (r : ℚ) ≤ 0 := by exact_mod_cast h0
    exact ⟨div_nonneg_of_nonpos h0' hb.le, (div_lt_one_of_neg hb).2 (by exact_mod_cast h1)⟩

theorem floored_of_remainder (hb : b ≠ 0) (h : a = q * b + r) (hr : 0 ≤ r ∧ r < b ∨ b < r ∧ r ≤ 0) :
    Floored (a / b) q := by
  obtain ⟨h0, h1⟩ := remainder_bounds hr
  rw [Floored, quotient_add hb h]
  symm
  rw [floor_eq_iff]
  constructor <;> linarith

theorem ceiled_of_remainder (hb : b ≠ 0) (h : a = q * b + r)
    (hr : -b < r ∧ r ≤ 0 ∨ 0 ≤ r ∧ r < -b) : Ceiled (a / b) q := by
  obtain ⟨h0, h1⟩ := remainder_bounds (show 0 ≤ -r ∧ -r < b ∨ b < -r ∧ -r ≤ 0 by omega)
  push_cast at h0 h1
  rw [neg_div] at h0 h1
  rw [Ceiled, quotient_add hb h]
  symm
  rw [ceil_eq_iff]
  constructor <;> linarith

theorem rounded_of_remainder (hb : b ≠ 0) (h : a = q * b + r) (hr : 2 * |r| ≤ |b|)
    (heven : 2 * |r| = |b| → Even q) : Rounded (a / b) q := by
  have hb' : (0 : ℚ) < |(b : ℚ)| := abs_pos.2 (by exact_mod_cast hb)
  have hdist : |(a : ℚ) / b - q| = |(r : ℚ)| / |(b : ℚ)| := by
    rw [quotient_add hb h, add_sub_cancel_left, abs_div]
  rw [Rounded, hdist, div_le_iff₀ hb', div_eq_iff hb'.ne']
  refine ⟨?_, fun heq => heven ?_⟩
  · have : 2 * |(r : ℚ)| ≤ |(b : ℚ)| := by exact_mod_cast hr
    linarith
  · have : 2 * |(r : ℚ)| = |(b : ℚ)| := by linarith
    exact_mod_cast this

/-- What `truncate` returns: the remainder has the number's sign, and the quotient that of the exact
one. -/
structure Truncation (a b q r : ℤ) : Prop where
  eq : a = q * b + r
  lt : 0 < b ∧ -b < r ∧ r < b ∨ b < 0 ∧ b < r ∧ r < -b
  nonneg : 0 ≤ a → 0 ≤ r
  nonpos : a ≤ 0 → r ≤ 0
  quotient_nonneg : 0 ≤ a ∧ 0 < b ∨ a ≤ 0 ∧ b < 0 → 0 ≤ q
  quotient_nonpos : 0 ≤ a ∧ b < 0 ∨ a ≤ 0 ∧ 0 < b → q ≤ 0

theorem truncateInteger_spec (a : ℤ) (hb : b ≠ 0) : ∃ q r, truncateInteger a b = some (q, r) ∧
    Truncation a b q r := by
  have habs : |a.tmod b| < |b| := by
    rw [abs_eq_natAbs, abs_eq_natAbs, natAbs_tmod]
    exact_mod_cast Nat.mod_lt _ (natAbs_pos.2 hb)
  have hneg (a : ℤ) (h : a ≤ 0) : a.tmod b ≤ 0 := by
    have := tmod_nonneg b (neg_nonneg.2 h)
    rw [neg_tmod] at this
    omega
  refine ⟨_, _, if_neg hb, ⟨(tdiv_mul_add_tmod a b).symm, ?_, fun h => tmod_nonneg b h,
    hneg a, ?_, ?_⟩⟩
  · rw [abs_lt] at habs
    rcases abs_cases b with ⟨h, -⟩ | ⟨h, -⟩ <;> omega
  · rintro (⟨h1, h2⟩ | ⟨h1, h2⟩)
    · exact Int.tdiv_nonneg h1 h2.le
    · exact tdiv_nonneg_of_nonpos_of_nonpos h1 h2.le
  rintro (⟨h1, h2⟩ | ⟨h1, h2⟩)
  · exact Int.tdiv_nonpos_of_nonneg_of_nonpos h1 h2.le
  · have := Int.tdiv_nonneg (neg_nonneg.2 h1) h2.le
    rw [Int.neg_tdiv] at this
    omega

theorem fixup_iff {P Q : Prop} [Decidable P] [Decidable Q] :
    (if minusp b = true then P else Q) ↔ b < 0 ∧ P ∨ 0 ≤ b ∧ Q := by
  unfold minusp
  by_cases h : b < 0
  · simp [h]
  · simp [h, not_lt.1 h]

end

theorem truncateInteger_divides : DividesInteger Truncated truncateInteger := by
  refine ⟨fun a => rfl, fun a b hb => ?_⟩
  obtain ⟨q, r, heq, h⟩ := truncateInteger_spec a hb
  refine ⟨q, r, heq, h.eq, ?_⟩
  have hlt := h.lt
  have hnonneg := h.nonneg
  have hnonpos := h.nonpos
  unfold Truncated
  by_cases hv : (0 : ℚ) ≤ a / b
  · rw [if_pos hv]
    have hsign : 0 ≤ a ∧ 0 < b ∨ a ≤ 0 ∧ b < 0 := by
      rcases div_nonneg_iff.1 hv with ⟨h1, h2⟩ | ⟨h1, h2⟩
      · exact .inl ⟨by exact_mod_cast h1, lt_of_le_of_ne (by exact_mod_cast h2) hb.symm⟩
      · exact .inr ⟨by exact_mod_cast h1, lt_of_le_of_ne (by exact_mod_cast h2) hb⟩
    exact floored_of_remainder hb h.eq (by omega)
  · rw [if_neg hv]
    have hsign : 0 ≤ a ∧ b < 0 ∨ a ≤ 0 ∧ 0 < b := by
      rcases div_neg_iff.1 (not_le.1 hv) with ⟨h1, h2⟩ | ⟨h1, h2⟩
      · exact .inl ⟨(by exact_mod_cast h1 : 0 < a).le, by exact_mod_cast h2⟩
      · exact .inr ⟨(by exact_mod_cast h1 : a < 0).le, by exact_mod_cast h2⟩
    exact ceiled_of_remainder hb h.eq (by omega)

theorem floorInteger_divides : DividesInteger Floored floorInteger := by
  refine ⟨fun a => rfl, fun a b hb => ?_⟩
  obtain ⟨q, r, heq, h⟩ := truncateInteger_spec a hb
  have hlt := h.lt
  unfold floorInteger
  rw [heq, bind_eq_bind, bind_some]
  by_cases hfix : if minusp b = true then r > 0 else r < 0
  · have hcases := fixup_iff.1 hfix
    have hqr : a = (q - 1) * b + (r + b) := by rw [h.eq]; ring
    exact ⟨q - 1, r + b, if_pos hfix, hqr, floored_of_remainder hb hqr (by omega)⟩
  · have hcases := mt fixup_iff.2 hfix
    exact ⟨q, r, if_neg hfix, h.eq, floored_of_remainder hb h.eq (by omega)⟩

theorem ceilingInteger_divides : DividesInteger Ceiled ceilingInteger := by
  refine ⟨fun a => rfl, fun a b hb => ?_⟩
  obtain ⟨q, r, heq, h⟩ := truncateInteger_spec a hb
  have hlt := h.lt
  unfold ceilingInteger
  rw [heq, bind_eq_bind, bind_some]
  by_cases hfix : if minusp b = true then r < 0 else r > 0
  · have hcases := fixup_iff.1 hfix
    have hqr : a = (q + 1) * b + (r - b) := by rw [h.eq]; ring
    exact ⟨q + 1, r - b, if_pos hfix, hqr, ceiled_of_remainder hb hqr (by omega)⟩
  · have hcases := mt fixup_iff.2 hfix
    exact ⟨q, r, if_neg hfix, h.eq, ceiled_of_remainder hb h.eq (by omega)⟩

theorem Truncation.abs_remainder_lt {a b q r : ℤ} (h : Truncation a b q r) : |r| < |b| := by
  rcases h.lt with ⟨hb, hlow, hhigh⟩ | ⟨hb, hlow, hhigh⟩
  · rw [abs_of_pos hb]
    exact abs_lt.2 ⟨hlow, hhigh⟩
  · rw [abs_of_neg hb]
    exact abs_lt.2 ⟨by omega, hhigh⟩

/-- A quotient that is rounded down is a negative one, or zero for one. -/
theorem Truncation.opposite {a b q r : ℤ} (h : Truncation a b q r)
    (hdown : q < 0 ∨ q = 0 ∧ ¬(a < 0 ↔ b < 0)) : 0 ≤ r ∧ b ≤ 0 ∨ r ≤ 0 ∧ 0 ≤ b := by
  have hnonneg := h.nonneg
  have hnonpos := h.nonpos
  have hq := h.quotient_nonneg
  omega

theorem Truncation.same {a b q r : ℤ} (h : Truncation a b q r)
    (hup : ¬(q < 0 ∨ q = 0 ∧ ¬(a < 0 ↔ b < 0))) : 0 ≤ r ∧ -b ≤ 0 ∨ r ≤ 0 ∧ 0 ≤ -b := by
  have hnonneg := h.nonneg
  have hnonpos := h.nonpos
  have hq := h.quotient_nonpos
  omega

theorem abs_add_of_opposite {r b : ℤ} (hle : |r| ≤ |b|) (h : 0 ≤ r ∧ b ≤ 0 ∨ r ≤ 0 ∧ 0 ≤ b) :
    |r + b| = |b| - |r| := by
  rcases h with ⟨hr, hb⟩ | ⟨hr, hb⟩
  · rw [abs_of_nonneg hr, abs_of_nonpos hb] at hle ⊢
    rw [abs_of_nonpos (by omega)]
    omega
  · rw [abs_of_nonpos hr, abs_of_nonneg hb] at hle ⊢
    rw [abs_of_nonneg (by omega)]
    omega

theorem roundInteger_divides : DividesInteger Rounded roundInteger := by
  refine ⟨fun a => rfl, fun a b hb => ?_⟩
  obtain ⟨q, r, heq, h⟩ := truncateInteger_spec a hb
  have hqr := h.eq
  have hlt := h.abs_remainder_lt
  have hsign : minusp a ≠ minusp b ↔ ¬(a < 0 ↔ b < 0) := by simp [minusp]
  unfold roundInteger
  rw [heq, bind_eq_bind, bind_some]
  dsimp only
  by_cases hrem : r = 0
  · subst hrem
    exact ⟨q, 0, if_pos rfl, hqr, rounded_of_remainder hb hqr (abs_nonneg b) fun heq =>
      absurd (abs_eq_zero.1 heq.symm) hb⟩
  rw [if_neg hrem]
  by_cases hthresh : |r| * 2 > |b| ∨ |r| * 2 = |b| ∧ q % 2 = 1
  · rw [if_pos hthresh]
    by_cases hdown : q < 0 ∨ q = 0 ∧ minusp a ≠ minusp b
    · have hqr' : a = (q - 1) * b + (r + b) := by rw [hqr]; ring
      have habs := abs_add_of_opposite hlt.le (h.opposite (by rwa [← hsign]))
      refine ⟨q - 1, r + b, if_pos hdown, hqr', rounded_of_remainder hb hqr' ?_ fun heven => ?_⟩
      · omega
      · rw [even_iff]
        omega
    · have hqr' : a = (q + 1) * b + (r - b) := by rw [hqr]; ring
      have habs :=
        abs_add_of_opposite (b := -b) (by rw [abs_neg]; exact hlt.le) (h.same (by rwa [← hsign]))
      rw [abs_neg, ← sub_eq_add_neg] at habs
      refine ⟨q + 1, r - b, if_neg hdown, hqr', rounded_of_remainder hb hqr' ?_ fun heven => ?_⟩
      · omega
      · rw [even_iff]
        omega
  · rw [if_neg hthresh]
    refine ⟨q, r, rfl, hqr, rounded_of_remainder hb hqr ?_ fun heven => ?_⟩
    · omega
    · rw [even_iff]
      omega

/-! ## The functions -/

section
variable {bignumGcd : ℤ → ℤ → ℤ} {x y : Rational}

theorem truncateRational_eq (x y : Rational) :
    truncateRational bignumGcd x y = quotientBy bignumGcd truncateInteger x y := by
  cases y with
  | integer n => cases x <;> rfl
  | ratio n d => cases x <;> rfl

theorem minusp_mul (hd : 0 < d) (n : ℤ) : minusp (d * n) = minusp n := by
  unfold minusp
  rw [decide_eq_decide]
  constructor
  · intro h
    by_contra hn
    exact absurd (mul_nonneg hd.le (not_lt.1 hn)) (not_le.2 h)
  · exact mul_neg_of_pos_of_neg hd

theorem floor_eq (hx : x.Canonical) (y : Rational) :
    floor bignumGcd x y = quotientBy bignumGcd floorInteger x y := by
  have hsign := minusp_mul hx.denominator_pos
  unfold floor quotientBy floorInteger
  -- the branches differ in what is divided
  cases y <;> cases x <;> dsimp only [denominator] at hsign ⊢
  all_goals
    generalize truncateInteger _ _ = o
    cases o with
    | none => rfl
    | some p =>
      simp only [hsign, bind_eq_bind, bind_some]
      split <;> split <;> rfl

theorem ceiling_eq (hx : x.Canonical) (y : Rational) :
    ceiling bignumGcd x y = quotientBy bignumGcd ceilingInteger x y := by
  have hsign := minusp_mul hx.denominator_pos
  unfold ceiling quotientBy ceilingInteger
  cases y <;> cases x <;> dsimp only [denominator] at hsign ⊢
  all_goals
    generalize truncateInteger _ _ = o
    cases o with
    | none => rfl
    | some p =>
      simp only [hsign, bind_eq_bind, bind_some]
      split <;> split <;> rfl

theorem round_eq (x y : Rational) :
    round bignumGcd x y = quotientBy bignumGcd roundInteger x y := by
  cases y with
  | integer n =>
    cases x with
    | integer m => rfl
    | ratio m d =>
      unfold round quotientBy
      dsimp only
      rw [mul_one, mul_one]
  | ratio n d => cases x <;> rfl

end

/-! ## Integers as they are stored -/

theorem addIntegers_represents (fresh : ℕ → Buffer) {a b : LispInteger} (ha : a.Represents m)
    (hb : b.Represents n) : (addIntegers fresh a b).Represents (m + n) := by
  match a, b, ha, hb with
  | .fixnum a, .fixnum b, ha, hb =>
    obtain rfl : a.val = m := ha
    obtain rfl : b.val = n := hb
    have ha := a.lower
    have ha' := a.upper
    have hb := b.lower
    have hb' := b.upper
    refine boxInteger_represents ?_
    unfold Limbs.Fits
    norm_num [nPositiveFixnumBits] at *
    omega
  | .fixnum a, .bignum b, ha, ⟨hb, hnormal⟩ =>
    obtain rfl : a.val = m := ha
    rw [← hb, add_comm]
    exact addBignumFixnum_represents fresh a hnormal.length_pos
  | .bignum a, .fixnum b, ⟨ha, hnormal⟩, hb =>
    obtain rfl : b.val = n := hb
    rw [← ha]
    exact addBignumFixnum_represents fresh b hnormal.length_pos
  | .bignum a, .bignum b, ⟨ha, hnormal⟩, ⟨hb, hnormal'⟩ =>
    rw [← ha, ← hb]
    exact addBignums_represents fresh hnormal.length_pos hnormal'.length_pos

theorem subtractIntegers_represents (fresh : ℕ → Buffer) {a b : LispInteger} (ha : a.Represents m)
    (hb : b.Represents n) : (subtractIntegers fresh a b).Represents (m - n) := by
  match a, b, ha, hb with
  | .fixnum a, .fixnum b, ha, hb =>
    obtain rfl : a.val = m := ha
    obtain rfl : b.val = n := hb
    have ha := a.lower
    have ha' := a.upper
    have hb := b.lower
    have hb' := b.upper
    refine boxInteger_represents ?_
    unfold Limbs.Fits
    norm_num [nPositiveFixnumBits] at *
    omega
  | .fixnum a, .bignum b, ha, ⟨hb, hnormal⟩ =>
    obtain rfl : a.val = m := ha
    rw [← hb]
    exact subtractFixnumBignum_represents fresh a hnormal.length_pos
  | .bignum a, .fixnum b, ⟨ha, hnormal⟩, hb =>
    obtain rfl : b.val = n := hb
    rw [← ha]
    exact subtractBignumFixnum_represents fresh b hnormal.length_pos
  | .bignum a, .bignum b, ⟨ha, hnormal⟩, ⟨hb, hnormal'⟩ =>
    rw [← ha, ← hb]
    exact subtractBignum_represents fresh hnormal.length_pos hnormal'.length_pos

theorem multiplyIntegers_represents (fresh : ℕ → Buffer) {a b : LispInteger} (ha : a.Represents m)
    (hb : b.Represents n) : (multiplyIntegers fresh a b).Represents (m * n) := by
  match a, b, ha, hb with
  | .fixnum a, .fixnum b, ha, hb =>
    obtain rfl : a.val = m := ha
    obtain rfl : b.val = n := hb
    have habs : |a.val * b.val| ≤ 2 ^ nPositiveFixnumBits * 2 ^ nPositiveFixnumBits := by
      rw [abs_mul]
      exact mul_le_mul (abs_le.2 ⟨a.lower, a.upper.le⟩) (abs_le.2 ⟨b.lower, b.upper.le⟩)
        (abs_nonneg _) (by positivity)
    rw [abs_le] at habs
    refine boxInteger_represents ?_
    unfold Limbs.Fits
    norm_num [nPositiveFixnumBits] at *
    omega
  | .fixnum a, .bignum b, ha, ⟨hb, hnormal⟩ =>
    obtain rfl : a.val = m := ha
    rw [← hb, mul_comm]
    exact multiplyBignumAndFixnum_represents fresh hnormal.toMinimal a
  | .bignum a, .fixnum b, ⟨ha, hnormal⟩, hb =>
    obtain rfl : b.val = n := hb
    rw [← ha]
    exact multiplyBignumAndFixnum_represents fresh hnormal.toMinimal b
  | .bignum a, .bignum b, ⟨ha, hnormal⟩, ⟨hb, hnormal'⟩ =>
    rw [← ha, ← hb]
    exact multiplyBignums_represents fresh hnormal.toMinimal hnormal'.toMinimal

theorem rational_arithmetic {bignumGcd : ℤ → ℤ → ℤ} (hgcd : LawfulGcd bignumGcd) {x y : Rational}
    (hx : x.Canonical) (hy : y.Canonical) :
    Returns (twoArgAdd bignumGcd x y) (x.value + y.value) ∧ Returns (twoArgSub bignumGcd x y)
      (x.value - y.value) ∧ Returns (twoArgMul bignumGcd x y) (x.value * y.value) ∧
      (y ≠ integer 0 → Returns (twoArgDiv bignumGcd x y) (x.value / y.value) ∧
        Divides Truncated (truncateRational bignumGcd x y) x.value y.value ∧
        Divides Floored (floor bignumGcd x y) x.value y.value ∧
        Divides Ceiled (ceiling bignumGcd x y) x.value y.value ∧
        Divides Rounded (round bignumGcd x y) x.value y.value) ∧
      (y = integer 0 → twoArgDiv bignumGcd x y = none ∧ truncateRational bignumGcd x y = none ∧
        floor bignumGcd x y = none ∧ ceiling bignumGcd x y = none ∧ round bignumGcd x y = none) ∧
      ∀ (fresh : ℕ → Buffer) (a b : LispInteger) (m n : ℤ), a.Represents m → b.Represents n →
        (addIntegers fresh a b).Represents (m + n) ∧
        (subtractIntegers fresh a b).Represents (m - n) ∧
          (multiplyIntegers fresh a b).Represents (m * n) := by
  rw [truncateRational_eq, floor_eq hx, ceiling_eq hx, round_eq]
  refine ⟨?_, ?_, twoArgMul_returns hgcd hx hy, fun hy0 => ?_, fun hy0 => ?_,
    fun fresh a b m n ha hb => ?_⟩
  · have h := twoArgAddSub_returns hgcd (s := 1) (by decide) (fun a b => by ring : ∀ a b : ℤ,
      a + b = a + 1 * b) hx hy
    rwa [cast_one, one_mul] at h
  · have h := twoArgAddSub_returns hgcd (s := -1) (by decide) (fun a b => by ring : ∀ a b : ℤ,
      a - b = a + -1 * b) hx hy
    rwa [cast_neg, cast_one, neg_one_mul, ← sub_eq_add_neg] at h
  · exact ⟨twoArgDiv_returns hgcd hx hy hy0,
      quotientBy_divides hgcd truncateInteger_divides hx hy hy0,
      quotientBy_divides hgcd floorInteger_divides hx hy hy0,
        quotientBy_divides hgcd ceilingInteger_divides hx hy hy0,
      quotientBy_divides hgcd roundInteger_divides hx hy hy0⟩
  · subst hy0
    exact ⟨twoArgDiv_zero x, quotientBy_zero truncateInteger_divides x,
      quotientBy_zero floorInteger_divides x,
      quotientBy_zero ceilingInteger_divides x, quotientBy_zero roundInteger_divides x⟩
  · exact ⟨addIntegers_represents fresh ha hb, subtractIntegers_represents fresh ha hb,
      multiplyIntegers_represents fresh ha hb⟩

/-- Knuth's case: the denominators have a factor, and so has the sum with it. -/
theorem rational_arithmetic_sixths :
    Returns (twoArgAdd (fun u v => Int.gcd u v) (ratio 1 6) (ratio 3 10))
      ((ratio 1 6).value + (ratio 3 10).value) :=
  (rational_arithmetic (x := ratio 1 6) (y := ratio 3 10) (fun _ _ _ _ _ => rfl) ⟨by decide,
    isCoprime_one_left⟩ ⟨by decide, isCoprime_iff_gcd_eq_one.2 (by decide)⟩).1

end Sbcl.Numbers
