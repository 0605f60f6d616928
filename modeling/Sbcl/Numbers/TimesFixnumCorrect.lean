import Sbcl.Numbers.RationalCorrect
import Sbcl.Numbers.TimesFixnum

/-!
# Where the product is a fixnum, and where the fallback finds one

* `Product` : that an integer is the exact product;
* `err_unreachable_iff` : the code behind the fallback is reached if and only if the product is a
  fixnum;
* `timesFixnum_exact_iff` : the ratios for which that happens.
-/

namespace Sbcl.Numbers

open SbBignum Rational Option Int

namespace Number

variable {Float : Type}

def Canonical : Number Float → Prop
  | rational x => x.Canonical
  | complex realpart imagpart => realpart.Canonical ∧ imagpart.Canonical ∧ imagpart ≠ integer 0
  | float _ => True
  | complexFloat _ _ => True

def IsFixnum (n : Number Float) : Prop := ∃ m, n = rational (integer m) ∧ fixnump m = true

/-- The integer `m` is the product with the fixnum `f`; that of a float is a float. -/
def Product (n : Number Float) (f m : ℤ) : Prop :=
  match n with
  | rational x => x.value * f = m
  | complex realpart imagpart => realpart.value * f = m ∧ imagpart.value * f = 0
  | float _ => False
  | complexFloat _ _ => False

end Number

open Number

section
variable {Float : Type} {n : Number Float} {f : ℤ}

/-- What becomes of a call is what the exact product says. -/
def Outcome.Exact (n : Number Float) (f : ℤ) : Outcome → Prop
  | returned m => fixnump m = true ∧ n.Product f m
  | typeError => ∀ m, fixnump m = true → ¬ n.Product f m
  | unreachable => False

/-- The ratios with a fixnum for their product whose numerator or denominator is 2⁶², and is no
fixnum. -/
def Missed (n : Number Float) (f : ℤ) : Prop :=
  ∃ num den, n = .rational (ratio num den) ∧
    (fixnump num = true ∧ den = -mostNegativeFixnum.val ∧ f = mostNegativeFixnum.val ∨
      num = -mostNegativeFixnum.val ∧ f = -den)

theorem not_missed (h : ∀ num den, n ≠ .rational (ratio num den)) : ¬ Missed n f := by
  rintro ⟨num, den, heq, -⟩
  exact h num den heq

theorem Rational.eq_integer_of_value {x : Rational} (hx : x.Canonical) {m : ℤ} (h : x.value = m) :
    x = integer m := by
  cases x with
  | integer n => exact congrArg integer (cast_injective h)
  | ratio n d =>
    obtain ⟨hd, hcoprime⟩ := hx
    have hd' : (d : ℚ) ≠ 0 := by exact_mod_cast (one_pos.trans hd).ne'
    have hn : n = m * d := by
      have := (div_eq_iff hd').1 h
      exact_mod_cast this
    -- the denominator divides the numerator
    have hunit := hcoprime.isUnit_of_dvd' ⟨m, hn.trans (mul_comm _ _)⟩ dvd_rfl
    rcases isUnit_iff.1 hunit with h | h <;> omega

variable {bignumGcd : ℤ → ℤ → ℤ} (hgcd : LawfulGcd bignumGcd) (floatTimes : Float → ℤ → Float)

theorem err_eq (product : Number Float)
    (h : twoArgMulFixnum bignumGcd floatTimes n f = some product) :
    err bignumGcd floatTimes n f = some .unreachable ∧ product.IsFixnum ∨
      err bignumGcd floatTimes n f = some .typeError ∧ ¬ product.IsFixnum := by
  rw [err, h, bind_eq_bind, bind_some]
  rcases product with (m | ⟨num, den⟩) | ⟨re, im⟩ | x | ⟨re, im⟩
  · dsimp only
    by_cases hm : fixnump m = true
    · exact .inl ⟨if_pos hm, m, rfl, hm⟩
    refine .inr ⟨if_neg hm, ?_⟩
    rintro ⟨m', heq, hm'⟩
    obtain rfl : m = m' := by simpa using heq
    exact hm hm'
  all_goals exact .inr ⟨rfl, fun ⟨_, heq, _⟩ => by simp at heq⟩

include hgcd

theorem twoArgMulFixnum_spec (hn : n.Canonical) (f : ℤ) : ∃ product,
    twoArgMulFixnum bignumGcd floatTimes n f = some product ∧
    ∀ m, product = .rational (integer m) ↔ n.Product f m := by
  cases n with
  | rational x =>
    obtain ⟨r, hr, hcanonical, hvalue⟩ := twoArgMul_returns hgcd hn (y := integer f) trivial
    refine ⟨.rational r, by rw [twoArgMulFixnum, hr]; rfl, fun m => ⟨fun h => ?_, fun h => ?_⟩⟩
    · obtain rfl : r = integer m := by simpa using h
      exact hvalue.symm
    · exact congrArg _ (Rational.eq_integer_of_value hcanonical (hvalue.trans h))
  | complex re im =>
    obtain ⟨r, hr, hcanonical, hvalue⟩ := twoArgMul_returns hgcd hn.1 (y := integer f) trivial
    obtain ⟨i, hi, hcanonical', hvalue'⟩ := twoArgMul_returns hgcd hn.2.1 (y := integer f) trivial
    refine ⟨canonicalComplex r i, by rw [twoArgMulFixnum, hr, hi]; rfl, fun m => ?_⟩
    have hi0 : i = integer 0 ↔ im.value * f = 0 := by
      refine ⟨fun h => ?_, fun h => ?_⟩
      · rw [h] at hvalue'
        simpa [value] using hvalue'.symm
      · exact Rational.eq_integer_of_value hcanonical' (by rw [hvalue']; simpa [value] using h)
    unfold canonicalComplex
    by_cases him : i = integer 0
    · rw [if_pos him]
      refine ⟨fun h => ?_, fun h => ?_⟩
      · obtain rfl : r = integer m := by simpa using h
        exact ⟨hvalue.symm, hi0.1 him⟩
      · exact congrArg _ (Rational.eq_integer_of_value hcanonical (hvalue.trans h.1))
    · rw [if_neg him]
      exact iff_of_false (by simp) fun h => him (hi0.2 h.2)
  | float x => exact ⟨_, rfl, fun m => iff_of_false (by simp) id⟩
  | complexFloat re im => exact ⟨_, rfl, fun m => iff_of_false (by simp) id⟩

theorem err_exact_iff (hn : n.Canonical) (f : ℤ) : ∃ outcome,
    err bignumGcd floatTimes n f = some outcome ∧
    (outcome.Exact n f ↔ ∀ m, fixnump m = true → ¬ n.Product f m) := by
  obtain ⟨product, hproduct, hspec⟩ := twoArgMulFixnum_spec hgcd floatTimes hn f
  rcases err_eq floatTimes product hproduct with ⟨herr, m, hm, hfixnum⟩ | ⟨herr, hnot⟩
  · exact ⟨_, herr, iff_of_false id fun h => h m hfixnum ((hspec m).1 hm)⟩
  · exact ⟨_, herr, Iff.rfl⟩

omit hgcd

/-! ## Products that are fixnums -/

theorem fixnump_iff {n : ℤ} : fixnump n = true ↔ -2 ^ 62 ≤ n ∧ n < 2 ^ 62 := decide_eq_true_iff

theorem mostNegativeFixnum_val : mostNegativeFixnum.val = -2 ^ 62 := rfl

/-- Only one integer that is no fixnum has a multiple that is one, but zero. -/
theorem fixnump_mul {q m : ℤ} (hq : q ≠ 0) (hm : ¬ fixnump m = true) (h : fixnump (q * m) = true) :
    q = -1 ∧ m = -mostNegativeFixnum.val := by
  rw [mostNegativeFixnum_val]
  rw [fixnump_iff] at hm h
  rcases Int.lt_or_gt_of_ne hq with hneg | hpos
  · rcases Int.lt_or_le m (-2 ^ 62) with hm' | hm'
    · nlinarith only [h.2, hm', hneg]
    have hlarge : 2 ^ 62 ≤ m := by omega
    have hq1 : q = -1 := by
      by_contra hne
      have : q ≤ -2 := by omega
      nlinarith only [h.1, hlarge, this]
    subst q
    exact ⟨rfl, by omega⟩
  · rcases Int.lt_or_le m (-2 ^ 62) with hm' | hm'
    · nlinarith only [h.1, hm', hpos]
    · have hlarge : 2 ^ 62 ≤ m := by omega
      nlinarith only [h.2, hlarge, hpos]

theorem product_ratio_iff {num den : ℤ} (hden : 1 < den) (m : ℤ) :
    (Number.rational (ratio num den) : Number Float).Product f m ↔ num * f = m * den := by
  have hden' : (den : ℚ) ≠ 0 := by exact_mod_cast (one_pos.trans hden).ne'
  show (num / den : ℚ) * f = m ↔ _
  rw [div_mul_eq_mul_div, div_eq_iff hden']
  exact_mod_cast Iff.rfl

theorem exists_quotient {num den m : ℤ} (hcanonical : (ratio num den).Canonical)
    (h : num * f = m * den) : ∃ q, f = q * den ∧ m = q * num := by
  obtain ⟨q, rfl⟩ := hcanonical.2.symm.dvd_of_dvd_mul_left ⟨m, by rw [h, mul_comm]⟩
  have hden : den ≠ 0 := by have := hcanonical.1; omega
  refine ⟨q, mul_comm _ _, mul_right_cancel₀ hden ?_⟩
  rw [← h]
  ring

theorem exists_product_iff {num den : ℤ} (hcanonical : (ratio num den).Canonical)
    (hf : fixnump f = true) (hf0 : f ≠ 0) (h : ¬ (fixnump num = true ∧ fixnump den = true)) :
    (∃ m, fixnump m = true ∧ (Number.rational (ratio num den) : Number Float).Product f m) ↔
      Missed (Number.rational (ratio num den) : Number Float) f := by
  simp only [product_ratio_iff hcanonical.1]
  constructor
  · rintro ⟨m, hm, hproduct⟩
    obtain ⟨q, rfl, rfl⟩ := exists_quotient hcanonical hproduct
    have hq : q ≠ 0 := left_ne_zero_of_mul hf0
    by_cases hnum : fixnump num = true
    · obtain ⟨rfl, hden⟩ := fixnump_mul hq (fun hden => h ⟨hnum, hden⟩) hf
      exact ⟨num, den, rfl, .inl ⟨hnum, hden, by rw [hden]; ring⟩⟩
    · obtain ⟨rfl, hnum'⟩ := fixnump_mul hq hnum hm
      exact ⟨num, den, rfl, .inr ⟨hnum', by ring⟩⟩
  · rintro ⟨num', den', heq, hcases⟩
    obtain ⟨rfl, rfl⟩ : num = num' ∧ den = den' := by simpa using heq
    rcases hcases with ⟨hnum, rfl, rfl⟩ | ⟨rfl, rfl⟩
    · refine ⟨-num, ?_, by ring⟩
      have hne : num ≠ -2 ^ 62 := by
        rintro rfl
        have := isCoprime_iff_gcd_eq_one.1 hcanonical.2
        revert this
        decide +kernel
      rw [fixnump_iff] at hnum ⊢
      omega
    · exact ⟨mostNegativeFixnum.val, by decide, by ring⟩

/-! ## The function -/

include hgcd

theorem timesFixnum_ratio {num den : ℤ} (hcanonical : (ratio num den).Canonical)
    (hf : fixnump f = true) :
    ∃ outcome, timesFixnum bignumGcd floatTimes (.rational (ratio num den)) f = some outcome ∧
      (outcome.Exact (Number.rational (ratio num den) : Number Float) f ↔
        ¬ Missed (Number.rational (ratio num den) : Number Float) f) := by
  obtain ⟨outcome, herr, hexact⟩ :=
    err_exact_iff hgcd floatTimes (n := .rational (ratio num den)) hcanonical f
  unfold timesFixnum
  by_cases hf0 : f = 0
  · subst hf0
    refine ⟨_, if_pos rfl,
      iff_of_true ⟨by decide, (product_ratio_iff hcanonical.1 0).2 (by ring)⟩ ?_⟩
    rintro ⟨num', den', heq, ⟨-, -, h0⟩ | ⟨-, h0⟩⟩
    · exact absurd h0 (by decide)
    · obtain ⟨rfl, rfl⟩ : num = num' ∧ den = den' := by simpa using heq
      have := hcanonical.1
      omega
  · dsimp only
    rw [if_neg hf0]
    by_cases hboth : fixnump num = true ∧ fixnump den = true
    · have hnot : ¬ Missed (Number.rational (ratio num den) : Number Float) f := by
        rintro ⟨num', den', heq, hcases⟩
        obtain ⟨rfl, rfl⟩ : num = num' ∧ den = den' := by simpa using heq
        rcases hcases with ⟨-, h, -⟩ | ⟨h, -⟩
        · exact absurd (h ▸ hboth.2) (by decide)
        · exact absurd (h ▸ hboth.1) (by decide)
      have hden : den ≠ 0 := by have := hcanonical.1; omega
      rw [if_pos (by rw [hboth.1, hboth.2]; rfl), truncateInteger, if_neg hden,
        bind_eq_bind, bind_some]
      by_cases hr : f.tmod den = 0
      · have hq : f = f.tdiv den * den := (Int.tdiv_mul_cancel (dvd_of_tmod_eq_zero hr)).symm
        have hproduct : num * f = f.tdiv den * num * den := by
          conv_lhs => rw [hq]
          ring
        refine ⟨_, if_pos hr, iff_of_true ?_ hnot⟩
        unfold theFixnum
        by_cases hm : fixnump (f.tdiv den * num) = true
        · rw [if_pos hm]
          exact ⟨hm, (product_ratio_iff hcanonical.1 _).2 hproduct⟩
        rw [if_neg hm]
        intro m hm' h
        rw [product_ratio_iff hcanonical.1, hproduct] at h
        exact hm (mul_right_cancel₀ hden h ▸ hm')
      · refine ⟨outcome, (if_neg hr).trans herr, iff_of_true (hexact.2 fun m _ h => hr ?_) hnot⟩
        obtain ⟨q, hq, -⟩ := exists_quotient hcanonical ((product_ratio_iff hcanonical.1 m).1 h)
        exact tmod_eq_zero_of_dvd ⟨q, hq.trans (mul_comm _ _)⟩
    · rw [if_neg (by rwa [Bool.and_eq_true])]
      refine ⟨outcome, herr, hexact.trans ?_⟩
      rw [← exists_product_iff hcanonical hf hf0 hboth]
      push Not
      rfl

/-- The product is returned if it is a fixnum, and otherwise a type error is signalled, for every
number but the ratios in `Missed`: there the code marked unreachable is reached. -/
theorem timesFixnum_exact_iff (hn : n.Canonical) (hnot : ¬ n.IsFixnum) (hf : fixnump f = true) :
    ∃ outcome, timesFixnum bignumGcd floatTimes n f = some outcome ∧
      (outcome.Exact n f ↔ ¬ Missed n f) := by
  obtain ⟨outcome, herr, hexact⟩ := err_exact_iff hgcd floatTimes hn f
  match n, hn with
  | .rational (ratio num den), hn => exact timesFixnum_ratio hgcd floatTimes hn hf
  | .rational (integer m), hn =>
    have hmissed : ¬ Missed (Number.rational (integer m) : Number Float) f := not_missed (by simp)
    have hm : ¬ fixnump m = true := fun hm => hnot ⟨m, rfl, hm⟩
    unfold timesFixnum
    dsimp only
    by_cases hf0 : f = 0
    · exact ⟨_, if_pos hf0, iff_of_true ⟨by decide, by simp [Product, hf0]⟩ hmissed⟩
    rw [if_neg hf0]
    by_cases hleast : f = -1 ∧ m = -mostNegativeFixnum.val
    · obtain ⟨rfl, rfl⟩ := hleast
      exact ⟨_, rfl, iff_of_true ⟨by decide, by simp [Product, value]⟩ hmissed⟩
    rw [if_neg (by simp only [Bool.and_eq_true, decide_eq_true_eq]; tauto)]
    refine ⟨outcome, herr, iff_of_true (hexact.2 fun m' hm' h => hleast ?_) hmissed⟩
    have hproduct : m * f = m' := by exact_mod_cast (show (m : ℚ) * f = m' from h)
    exact fixnump_mul hf0 hm (by rwa [mul_comm, hproduct])
  | .complex re im, hn =>
    have hmissed : ¬ Missed (Number.complex re im : Number Float) f := not_missed (by simp)
    unfold timesFixnum
    dsimp only
    by_cases hf0 : f = 0
    · exact ⟨_, if_pos hf0, iff_of_true ⟨by decide, by simp [Product, hf0]⟩ hmissed⟩
    rw [if_neg hf0]
    refine ⟨outcome, herr, iff_of_true (hexact.2 fun m _ h => ?_) hmissed⟩
    have him : im.value = 0 := (mul_eq_zero.1 h.2).resolve_right (by exact_mod_cast hf0)
    exact hn.2.2 (Rational.eq_integer_of_value hn.2.1 (him.trans cast_zero.symm))
  | .float x, _ | .complexFloat re im, _ =>
    exact ⟨outcome, herr, iff_of_true (hexact.2 fun m _ h => h) (not_missed (by simp))⟩

end

theorem timesFixnum_exact_iff_third :
    ∃ outcome, timesFixnum (fun u v => Int.gcd u v) (fun (x : ℚ) f => x * f)
      (.rational (ratio 1 3)) 6 = some outcome ∧
      (outcome.Exact (.rational (ratio 1 3) : Number ℚ) 6 ↔
        ¬ Missed (.rational (ratio 1 3) : Number ℚ) 6) :=
  timesFixnum_exact_iff (fun _ _ _ _ _ => rfl) _
    (show (ratio 1 3).Canonical from ⟨by decide, isCoprime_one_left⟩)
    (fun ⟨_, heq, _⟩ => by simp at heq) (by decide)

/-- 1/2⁶² times −2⁶² is −1, and the code marked unreachable is reached; the same for 2⁶²/3 times −3.
-/
theorem timesFixnum_reaches :
    timesFixnum (fun u v => Int.gcd u v) (fun (x : ℚ) f => x * f)
      (.rational (ratio 1 (2 ^ 62))) (-2 ^ 62) =
        some .unreachable ∧
      (.rational (ratio 1 (2 ^ 62)) : Number ℚ).Product (-2 ^ 62) (-1) ∧
      timesFixnum (fun u v => Int.gcd u v) (fun (x : ℚ) f => x * f)
        (.rational (ratio (2 ^ 62) 3)) (-3) = some .unreachable ∧
      (.rational (ratio (2 ^ 62) 3) : Number ℚ).Product (-3) (-2 ^ 62) := by
  refine ⟨by decide +kernel, (product_ratio_iff (by decide) _).2 (by decide), by decide +kernel,
    (product_ratio_iff (by decide) _).2 (by decide)⟩

end Sbcl.Numbers
