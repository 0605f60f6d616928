import Sbcl.Printer.FlonumCorrect
import Sbcl.Printer.IntegerCorrect

/-!
# The floats whose last digit is the nearest

The minimum exponent of the code is one more than the exponent of the smallest floats, and these
have a smaller one still when they are moved to the left. So the interval of the algorithm is not
the rounding interval for the powers of two among them, and two of these have a decimal of the same
length in their rounding interval that is nearer.

* `smallCheck_all` : the digits of the small powers of two, computed;
* `ReadsBack`, `LastDigitNearest`, `PrintsFloat` : what is said of the digits of a float;
* `flonum_digits` : the digits are read back as the float always, and the last one is the nearest
  but for these two floats.
-/

namespace Sbcl.Printer

open BinaryFloat Numeral Option

variable {b c f : ℕ} {x : ℚ} {est : ℤ}

/-! ## Small powers of two -/

variable (type : FloatType)

/-- The float `2 ^ j` of the smallest ones is `2 ^ (digits - 1)` over two to this power. -/
def smallScale (j : ℕ) : ℕ := (-type.subnormalExponent).toNat + (type.digits - 1) - j

/-- The exponent of the float, without its sign. -/
def smallExponent (j : ℕ) : ℕ := ((-type.subnormalExponent).toNat - j) * 30103 / 100000

/-- The distance of `N / 10 ^ c` to the float, times both denominators. -/
def smallError (j c : ℕ) (N : ℤ) : ℕ :=
  (N * 2 ^ smallScale type j - 2 ^ (type.digits - 1) * 10 ^ c).natAbs

/-- The two floats of the type that are not printed with the nearest digit. -/
def IsFar (j : ℕ) : Prop := type = .doubleFloat ∧ (j = 37 ∨ j = 50)

instance (j : ℕ) : Decidable (IsFar type j) := inferInstanceAs (Decidable (_ ∧ (_ ∨ _)))

/-- The digits of a float are not further than a half of the last place; of a far one, the number
below is nearer and in the rounding interval. -/
def smallCheck (j : ℕ) (k : ℤ) (digits : List ℕ) : Bool :=
  let c := (digits.length - k).toNat
  let N := horner 10 0 digits
  decide (k ≤ digits.length) &&
    if IsFar type j then
      decide (smallError type j c (N - 1) < smallError type j c N) &&
        decide (2 * smallError type j c (N - 1) < 10 ^ c * 2 ^ (type.digits - 1 - j))
    else
      decide (2 * smallError type j c N ≤ 2 ^ smallScale type j) &&
        (decide (j < type.digits) || decide (4 * smallError type j c N < 10 ^ c))

theorem smallCheck_all : ∀ j < type.digits + 1,
    ((2 ^ type.digits + 1) * 10 ^ smallExponent type j < 2 ^ (smallScale type j + 1) ∧
      2 ^ (smallScale type j + 1) ≤ (2 ^ type.digits + 1) * 10 ^ (smallExponent type j + 1)) ∧
    ∀ δ : ℕ, δ < 2 →
      (freeFormat type (2 ^ (type.digits - 1)) (-smallScale type j)
        (-smallExponent type j - (δ : ℤ))).all
      (fun result => smallCheck type j result.1 result.2) = true := by
  cases type <;> decide +kernel

theorem isExponent_of_nat {f a c : ℕ} (h : (2 * f + 1) * 10 ^ c < 2 ^ (a + 1))
    (h' : 2 ^ (a + 1) ≤ (2 * f + 1) * 10 ^ (c + 1)) : IsExponent true (upperEnd f (-a)) (-c) := by
  have hupper : upperEnd f (-a) = (2 * f + 1) / 2 ^ (a + 1) := by
    unfold upperEnd
    rw [zpow_neg, zpow_natCast, pow_succ]
    field_simp
  have h₁ : ((2 : ℚ) * f + 1) * 10 ^ c < 2 ^ (a + 1) := by exact_mod_cast h
  have h₂ : (2 : ℚ) ^ (a + 1) ≤ (2 * f + 1) * 10 ^ (c + 1) := by exact_mod_cast h'
  have hpow : (0 : ℚ) < 2 ^ (a + 1) := by positivity
  have hten : (0 : ℚ) < 10 ^ c := by positivity
  rw [hupper]
  constructor
  · show ¬(10 : ℚ) ^ (-(c : ℤ)) ≤ _
    rw [not_le, zpow_neg, zpow_natCast, div_lt_iff₀ hpow, ← div_eq_inv_mul, lt_div_iff₀ hten]
    exact h₁
  show (10 : ℚ) ^ (-(c : ℤ) - 1) ≤ _
  rw [show (-(c : ℤ) - 1) = -((c + 1 : ℕ) : ℤ) by push_cast; ring, zpow_neg, zpow_natCast,
    le_div_iff₀ hpow, ← div_eq_inv_mul, div_le_iff₀ (by positivity)]
  exact h₂

theorem smallError_eq (j c : ℕ) (N : ℤ) :
    |(N : ℚ) / 10 ^ c - 2 ^ (type.digits - 1) / 2 ^ smallScale type j| =
      smallError type j c N / (10 ^ c * 2 ^ smallScale type j) := by
  have hcast : (smallError type j c N : ℚ) = |(N : ℚ) * 2 ^ smallScale type j -
      2 ^ (type.digits - 1) * 10 ^ c| := by
    unfold smallError
    rw [Nat.cast_natAbs]
    push_cast
    rfl
  have hpos : (0 : ℚ) < 10 ^ c * 2 ^ smallScale type j := by positivity
  have hmul : ((N : ℚ) / 10 ^ c - 2 ^ (type.digits - 1) / 2 ^ smallScale type j) *
    (10 ^ c * 2 ^ smallScale type j) =
      N * 2 ^ smallScale type j - 2 ^ (type.digits - 1) * 10 ^ c := by
    field_simp
  rw [hcast, eq_div_iff hpos.ne', ← hmul, abs_mul, abs_of_pos hpos]

theorem nearest_of_half {M : ℤ} (h : |M / 10 ^ c - x| ≤ 1 / (2 * 10 ^ c)) (N : ℤ) :
    |M / 10 ^ c - x| ≤ |N / 10 ^ c - x| := by
  rcases eq_or_ne N M with rfl | hne
  · exact le_rfl
  have hpow : (0 : ℚ) < 10 ^ c := by positivity
  have hone : (1 : ℚ) ≤ |(N : ℚ) - M| := by exact_mod_cast Int.one_le_abs (sub_ne_zero.2 hne)
  have hfar : (1 : ℚ) / 10 ^ c ≤ |(N : ℚ) / 10 ^ c - M / 10 ^ c| := by
    rw [← sub_div, abs_div, abs_of_pos hpow]
    exact div_le_div_of_nonneg_right hone hpow.le
  have htriangle := abs_sub_le ((N : ℚ) / 10 ^ c) x (M / 10 ^ c)
  rw [abs_sub_comm x] at htriangle
  have hsplit : (1 : ℚ) / 10 ^ c = 1 / (2 * 10 ^ c) + 1 / (2 * 10 ^ c) := by
    field_simp
    norm_num
  linarith

/-- The decimal is in the rounding interval of the float, and rounded to it and to no other. -/
def ReadsBack (b : ℕ) (x : ℚ) : Prop :=
  InRoundingInterval type.format b x ∧ ∀ b', RoundsTo type.format x b' ↔ b' = b

/-- No other last digit gives a decimal in the rounding interval that is nearer. -/
def LastDigitNearest (b : ℕ) (k : ℤ) (digits : List ℕ) : Prop :=
  ∀ N : ℤ, InRoundingInterval type.format b (N * 10 ^ (k - digits.length)) →
    |decimalValue k digits - type.format.value b| ≤ |N * 10 ^ (k - digits.length) -
    type.format.value b|

/-- The estimate is the exponent or one less, and of its declared type. -/
def ScaleEstimate (bits : FloatBits type) (est : ℤ) : Prop :=
  -323 ≤ est ∧ est ≤ 309 ∧ ∀ f e, leftAligned type bits = some (f, e) →
    IsExponent (f % 2 == 0) (upperEnd f e) est ∨ IsExponent (f % 2 == 0) (upperEnd f e) (est + 1)

/-- The exponent and the digits of a float are as they should. -/
def PrintsFloat (bits : FloatBits type) (est : ℤ) : Prop :=
  ∃ k digits, percentFlonumToDigits type bits est = some (k, digits) ∧ (∀ d ∈ digits, d < 10) ∧
    ReadsBack type (ordinal type bits) (decimalValue k digits) ∧
    LastDigitNearest type (ordinal type bits) k digits

variable {k : ℤ} {digits : List ℕ}

theorem nearest_of_symmetric {ok : Bool} {x gap y : ℚ}
    (h : Generated ok (x / 10 ^ k) (gap / 10 ^ k) (gap / 10 ^ k) digits) (N : ℤ)
    (hy : y = N * 10 ^ (k - digits.length)) : |decimalValue k digits - x| ≤ |y - x| := by
  obtain ⟨hlow, hhigh, hnearest⟩ := h.decimal
  have hgap : |decimalValue k digits - x| ≤ gap :=
    abs_le.2 ⟨by linarith [hlow.le], by linarith [hhigh.le]⟩
  by_cases hN : Below ok (x - gap) y
  · by_cases hN' : Below ok y (x + gap)
    · rw [hy] at hN hN' ⊢
      exact hnearest N hN hN'
    · have hge := not_below hN'
      exact hgap.trans (le_abs.2 (.inl (by linarith)))
  · have hle := not_below hN
    exact hgap.trans (le_abs.2 (.inr (by linarith)))

/-! ## The small powers of two -/

variable {j : ℕ}

theorem small_isExponent (hj : j ≤ type.digits) :
    IsExponent true (upperEnd (2 ^ (type.digits - 1)) (-smallScale type j))
      (-smallExponent type j) := by
  obtain ⟨⟨hlow, hhigh⟩, -⟩ := smallCheck_all type j (Nat.lt_succ_of_le hj)
  have hdigits : 2 * 2 ^ (type.digits - 1) = 2 ^ type.digits := by cases type <;> decide
  rw [← hdigits] at hlow hhigh
  exact isExponent_of_nat hlow hhigh

theorem even_hiddenBit : (2 ^ (type.digits - 1) % 2 == 0) = true := by cases type <;> decide

theorem small_estimate (hj : j ≤ type.digits)
    (hest : IsExponent (2 ^ (type.digits - 1) % 2 == 0)
      (upperEnd (2 ^ (type.digits - 1)) (-smallScale type j)) est ∨
      IsExponent (2 ^ (type.digits - 1) % 2 == 0)
        (upperEnd (2 ^ (type.digits - 1)) (-smallScale type j)) (est + 1)) :
    ∃ δ : ℕ, δ < 2 ∧ est = -smallExponent type j - (δ : ℤ) := by
  have hexp := small_isExponent type hj
  rw [even_hiddenBit] at hest
  rcases hest with hest | hest
  · exact ⟨0, by decide, by rw [hest.unique hexp]; simp⟩
  · exact ⟨1, by decide, by have := hest.unique hexp; push_cast; omega⟩

theorem smallCheck_digits (hj : j ≤ type.digits)
    (hest : IsExponent (2 ^ (type.digits - 1) % 2 == 0)
      (upperEnd (2 ^ (type.digits - 1)) (-smallScale type j)) est ∨
      IsExponent (2 ^ (type.digits - 1) % 2 == 0)
        (upperEnd (2 ^ (type.digits - 1)) (-smallScale type j)) (est + 1))
    (h : freeFormat type (2 ^ (type.digits - 1)) (-smallScale type j) est = some (k, digits)) :
    smallCheck type j k digits = true := by
  obtain ⟨-, hall⟩ := smallCheck_all type j (Nat.lt_succ_of_le hj)
  obtain ⟨δ, hδ, rfl⟩ := small_estimate type hj hest
  have hcheck := hall δ hδ
  rw [h] at hcheck
  exact hcheck

theorem decimalValue_eq (hk : k ≤ digits.length) (N : ℚ) :
    N * 10 ^ (k - digits.length) = N / 10 ^ (digits.length - k).toNat := by
  obtain ⟨c, hc⟩ := Int.eq_ofNat_of_zero_le (sub_nonneg.2 hk)
  rw [hc, Int.toNat_natCast, show k - digits.length = -(c : ℤ) by omega, zpow_neg,
    zpow_natCast, div_eq_mul_inv]

theorem float_eq (j : ℕ) : ((2 ^ (type.digits - 1) : ℕ) : ℚ) * 2 ^ (-(smallScale type j : ℤ)) =
    2 ^ (type.digits - 1) / 2 ^ smallScale type j := by
  rw [zpow_neg, zpow_natCast, div_eq_mul_inv]
  push_cast
  rfl

theorem two_zpow_subnormal :
    (2 : ℚ) ^ type.subnormalExponent = 1 / 2 ^ (-type.subnormalExponent).toNat := by
  have h : type.subnormalExponent = -((-type.subnormalExponent).toNat : ℤ) := by cases type <;> rfl
  conv_lhs => rw [h]
  rw [zpow_neg, zpow_natCast, one_div]

theorem ulp_largest : type.format.ulp (2 ^ type.digits) = 2 * 2 ^ type.subnormalExponent ∧
    type.format.ulp (2 ^ type.digits - 1) = 2 ^ type.subnormalExponent := by
  have hfield : type.format.field (2 ^ type.digits) = 2 ∧
      type.format.field (2 ^ type.digits - 1) = 1 := by
    cases type <;> decide
  rw [Format.ulp, Format.ulp, Format.exponent, Format.exponent, hfield.1, hfield.2,
    format_minExponent]
  constructor
  · rw [show (((2 - 1 : ℕ)) : ℤ) = 1 from rfl, zpow_add_one₀ two_ne_zero, mul_comm]
  · simp

theorem small_spec (hj : j ≤ type.digits) (hb : b = 2 ^ j)
    (hvalue : type.format.value b = 2 ^ (type.digits - 1) / 2 ^ smallScale type j)
    (hcheck : smallCheck type j k digits = true) :
    (LastDigitNearest type b k digits ↔ ¬IsFar type j) ∧
      (j = type.digits → InRoundingInterval type.format b (decimalValue k digits)) := by
  unfold smallCheck at hcheck
  rw [Bool.and_eq_true, decide_eq_true_eq] at hcheck
  obtain ⟨hk, hcheck⟩ := hcheck
  have herror (N : ℤ) : |(N : ℚ) * 10 ^ (k - digits.length) - type.format.value b| =
      smallError type j (digits.length - k).toNat N /
        (10 ^ (digits.length - k).toNat * 2 ^ smallScale type j) := by
    rw [decimalValue_eq hk, hvalue, smallError_eq]
  have hdecimal : |decimalValue k digits - type.format.value b| =
      smallError type j (digits.length - k).toNat (horner 10 0 digits : ℕ) /
        (10 ^ (digits.length - k).toNat * 2 ^ smallScale type j) := by
    rw [← herror, decimalValue]
    rfl
  set c := (digits.length - k).toNat with hc
  set N : ℤ := ((horner 10 0 digits : ℕ) : ℤ) with hN
  have hscale : (0 : ℚ) < 2 ^ smallScale type j := by positivity
  have hten : (0 : ℚ) < 10 ^ c := by positivity
  have hpos : (0 : ℚ) < 10 ^ c * 2 ^ smallScale type j := mul_pos hten hscale
  have hbpos : 0 < b := hb ▸ Nat.two_pow_pos j
  by_cases hfar : IsFar type j
  · rw [if_pos hfar, Bool.and_eq_true, decide_eq_true_eq, decide_eq_true_eq] at hcheck
    obtain ⟨hcloser, hinside⟩ := hcheck
    obtain ⟨rfl, hj37⟩ := hfar
    have hlt : j < 52 := by omega
    refine ⟨iff_of_false ?_ (not_not.2 ⟨rfl, hj37⟩), fun h => ?_⟩
    · intro hnearest
      have hfield : FloatType.doubleFloat.format.field b = 0 := by
        rw [hb]
        exact Nat.div_eq_of_lt (Nat.pow_lt_pow_right (by norm_num) hlt)
      obtain ⟨hulp, hulp'⟩ := ulp_subnormal .doubleFloat hfield hbpos.ne'
      have hdist :
        |((N - 1 : ℤ) : ℚ) * 10 ^ (k - digits.length) - FloatType.doubleFloat.format.value b| <
          2 ^ FloatType.doubleFloat.subnormalExponent / 2 := by
        have hcast : (2 : ℚ) * smallError .doubleFloat j c (N - 1) <
            10 ^ c * 2 ^ (FloatType.doubleFloat.digits - 1 - j) := by exact_mod_cast hinside
        have hsum : smallScale .doubleFloat j =
            (-FloatType.doubleFloat.subnormalExponent).toNat +
              (FloatType.doubleFloat.digits - 1 - j) := by
          show 1074 + 52 - j = 1074 + (52 - j)
          omega
        have heq : (1 : ℚ) / 2 ^ (-FloatType.doubleFloat.subnormalExponent).toNat / 2 *
            (10 ^ c * 2 ^ smallScale .doubleFloat j) =
              10 ^ c * 2 ^ (FloatType.doubleFloat.digits - 1 - j) / 2 := by
          rw [hsum, pow_add]
          field_simp
        rw [herror, two_zpow_subnormal, div_lt_iff₀ hpos, heq]
        linarith
      have hle := hnearest (N - 1) (inRoundingInterval_of_dist hbpos (hulp' ▸ hdist) (hulp ▸ hdist))
      rw [hdecimal, herror, div_le_div_iff_of_pos_right hpos] at hle
      exact absurd hcloser (not_lt.2 (by exact_mod_cast hle))
    · rw [h] at hlt
      exact absurd hlt (by decide)
  · rw [if_neg hfar, Bool.and_eq_true, Bool.or_eq_true, decide_eq_true_eq, decide_eq_true_eq,
      decide_eq_true_eq] at hcheck
    obtain ⟨hhalf, hlargest⟩ := hcheck
    have hhalf' : |decimalValue k digits - type.format.value b| ≤ 1 / (2 * 10 ^ c) := by
      have hcast : (2 : ℚ) * smallError type j c N ≤ 2 ^ smallScale type j := by
        exact_mod_cast hhalf
      rw [hdecimal, div_le_div_iff₀ hpos (by positivity)]
      calc (smallError type j c N : ℚ) * (2 * 10 ^ c) =
        2 * smallError type j c N * 10 ^ c := by ring
        _ ≤ 2 ^ smallScale type j * 10 ^ c := mul_le_mul_of_nonneg_right hcast hten.le
        _ = 1 * (10 ^ c * 2 ^ smallScale type j) := by ring
    refine ⟨iff_of_true (fun M _ => ?_) hfar, fun h => ?_⟩
    · have hvalue' : decimalValue k digits = (N : ℚ) / 10 ^ c := by
        rw [hc, ← decimalValue_eq hk, decimalValue]
        rfl
      rw [decimalValue_eq hk, ← hc]
      rw [hvalue'] at hhalf' ⊢
      exact nearest_of_half hhalf' M
    · subst h
      have hquarter := hlargest.resolve_left (lt_irrefl _)
      obtain ⟨hulp, hulp'⟩ := ulp_largest type
      rw [← hb] at hulp hulp'
      have hpow : (0 : ℚ) < 2 ^ type.subnormalExponent := zpow_pos two_pos _
      have hdist : |decimalValue k digits - type.format.value b| <
          2 ^ type.subnormalExponent / 2 := by
        have hcast : (4 : ℚ) * smallError type type.digits c N < 10 ^ c := by
          exact_mod_cast hquarter
        have hsum : (-type.subnormalExponent).toNat = smallScale type type.digits + 1 := by
          cases type <;> rfl
        rw [hdecimal, two_zpow_subnormal, hsum, div_lt_iff₀ hpos, pow_succ]
        have heq : (1 : ℚ) / (2 ^ smallScale type type.digits * 2) / 2 *
          (10 ^ c * 2 ^ smallScale type type.digits) =
            10 ^ c / 4 := by
          field_simp
          norm_num
        rw [heq]
        linarith
      exact inRoundingInterval_of_dist hbpos (hulp' ▸ hdist) (by rw [hulp]; linarith)

/-! ## All floats -/

variable {bits : FloatBits type}

theorem aligned (hfinite : IsFinite type bits) (hb : ordinal type bits ≠ 0) :
    ∃ f e, Aligned type bits f e := by
  by_cases hfield : type.format.field (ordinal type bits) = 0
  · exact aligned_subnormal type hfield hb
  · exact aligned_normal type hfinite hfield

/-- The two floats, by their bits. -/
def FarBits (b : ℕ) : Prop := type = .doubleFloat ∧ (b = 2 ^ 37 ∨ b = 2 ^ 50)

theorem farBits_pow (j : ℕ) : FarBits type (2 ^ j) ↔ IsFar type j := by
  unfold FarBits IsFar
  rw [Nat.pow_right_inj (le_refl 2), Nat.pow_right_inj (le_refl 2)]

theorem field_of_farBits (h : FarBits type b) : type.format.field b = 0 := by
  obtain ⟨rfl, rfl | rfl⟩ := h
  · decide
  · decide

/-- The digits of a float are in its rounding interval, and the last one is the nearest but for the
two floats. -/
theorem percentFlonumToDigits_spec (hfinite : IsFinite type bits)
    (hb : ordinal type bits ≠ 0) (hest : ScaleEstimate type bits est) :
    ∃ k digits, percentFlonumToDigits type bits est = some (k, digits) ∧ (∀ d ∈ digits, d < 10) ∧
      InRoundingInterval type.format (ordinal type bits) (decimalValue k digits) ∧
      (LastDigitNearest type (ordinal type bits) k digits ↔ ¬FarBits type (ordinal type bits)) := by
  obtain ⟨f, e, haligned, hvalue, he, hinterval⟩ := aligned type hfinite hb
  obtain ⟨hmin, hmax, hest⟩ := hest
  obtain ⟨k, digits, hdigits, hk, hgenerated⟩ :=
    freeFormat_spec type he hmin hmax (hest f e haligned)
  obtain ⟨hlow, hhigh, hnearest⟩ := hgenerated.decimal
  refine ⟨k, digits, ?_, hgenerated.digit_lt, ?_⟩
  · unfold percentFlonumToDigits
    rw [haligned]
    exact hdigits
  rcases hinterval with ⟨hfield, hiff⟩ | ⟨hpow, hinside, hgap⟩ | ⟨j, hj, hpow, rfl, rfl, hinside⟩
  · refine ⟨(hiff _).2 ⟨hlow, hhigh⟩, iff_of_true (fun N hN => ?_) fun h =>
      hfield (field_of_farBits type h)⟩
    rw [hvalue]
    obtain ⟨hN, hN'⟩ := (hiff _).1 hN
    exact hnearest N hN hN'
  · refine ⟨hinside _ hlow hhigh, iff_of_true (fun N _ => ?_) ?_⟩
    · rw [hgap] at hgenerated
      rw [hvalue]
      exact nearest_of_symmetric hgenerated N rfl
    · rintro ⟨-, h | h⟩
      · exact hpow _ h
      · exact hpow _ h
  · have hscale : type.subnormalExponent + j - (type.digits - 1 : ℕ) =
        -(smallScale type j : ℤ) := by
      cases type with
      | singleFloat =>
        have hj' : j ≤ 24 := hj
        show (-149 : ℤ) + j - (23 : ℕ) = -((149 + 23 - j : ℕ) : ℤ)
        omega
      | doubleFloat =>
        have hj' : j ≤ 53 := hj
        show (-1074 : ℤ) + j - (52 : ℕ) = -((1074 + 52 - j : ℕ) : ℤ)
        omega
    rw [hscale] at hvalue hdigits hlow hhigh hinside haligned
    rw [float_eq] at hvalue
    have hcheck := smallCheck_digits type hj (hest _ _ haligned) hdigits
    obtain ⟨hiff, hlargest⟩ := small_spec type hj hpow hvalue hcheck
    rw [hiff, hpow, farBits_pow]
    refine ⟨?_, Iff.rfl⟩
    rcases Nat.lt_or_eq_of_le hj with hlt | heq
    · rw [← hpow]
      exact hinside hlt _ hlow hhigh
    · rw [← hpow]
      exact hlargest heq

theorem getElem?_digitCharacters : ∀ d < 10, digitCharacters[d]? = some (digitChar d) := by decide

theorem mapM_digitCharacters (hdigits : ∀ d ∈ digits, d < 10) :
    digits.mapM (fun d => digitCharacters[d]?) = some (digits.map digitChar) := by
  induction digits with
  | nil => rfl
  | cons d digits ih =>
    rw [List.mapM_cons, getElem?_digitCharacters d (hdigits d List.mem_cons_self),
      ih fun d hd => hdigits d (List.mem_cons_of_mem _ hd)]
    rfl

theorem flonumToDigits_eq (hb : ordinal type bits ≠ 0)
    (h : percentFlonumToDigits type bits est = some (k, digits)) (hdigits : ∀ d ∈ digits, d < 10) :
    flonumToDigits type bits est = some (k, digits.map digitChar) := by
  have hb' : ¬bits.toNat % 2 ^ (type.width - 1) = 0 := hb
  unfold flonumToDigits
  rw [if_neg hb', h, bind_eq_bind, bind_some]
  dsimp only
  rw [mapM_digitCharacters hdigits]
  rfl

theorem printsFloat_iff (hfinite : IsFinite type bits) (hb : ordinal type bits ≠ 0)
    (hest : ScaleEstimate type bits est) : PrintsFloat type bits est ↔
    ¬FarBits type (ordinal type bits) := by
  obtain ⟨k, digits, hdigits, hlt, hinside, hiff⟩ := percentFlonumToDigits_spec type hfinite hb hest
  constructor
  · rintro ⟨k', digits', hdigits', -, -, hnearest⟩
    obtain ⟨rfl, rfl⟩ := Prod.mk.inj (some_inj.1 (hdigits.symm.trans hdigits'))
    exact hiff.1 hnearest
  · intro hfar
    exact ⟨k, digits, hdigits, hlt, ⟨hinside, roundsTo_iff (Nat.pos_of_ne_zero hb) hinside⟩,
      hiff.2 hfar⟩

/-- The digits of a finite float that is not zero denote a number in its rounding interval, which is
read as the float; and the last one is the nearest if and only if the float is not one of the two.
-/
theorem flonum_digits (bits : FloatBits type) (est : ℤ) (hfinite : IsFinite type bits)
    (hb : ordinal type bits ≠ 0) (hest : ScaleEstimate type bits est) :
    (∃ k digits, percentFlonumToDigits type bits est = some (k, digits) ∧ (∀ d ∈ digits, d < 10) ∧
      flonumToDigits type bits est = some (k, digits.map digitChar) ∧
      ReadsBack type (ordinal type bits) (decimalValue k digits)) ∧
    (PrintsFloat type bits est ↔ ¬FarBits type (ordinal type bits)) := by
  obtain ⟨k, digits, hdigits, hlt, hinside, -⟩ := percentFlonumToDigits_spec type hfinite hb hest
  refine ⟨⟨k, digits, hdigits, hlt, flonumToDigits_eq type hb hdigits hlt, hinside, ?_⟩,
    printsFloat_iff type hfinite hb hest⟩
  exact roundsTo_iff (Nat.pos_of_ne_zero hb) hinside

theorem scaleEstimate_of {e : ℤ} (hmin : -323 ≤ est) (hmax : est ≤ 309)
    (h : leftAligned type bits = some (f, e)) (hexp : IsExponent (f % 2 == 0) (upperEnd f e) est) :
    ScaleEstimate type bits est := by
  refine ⟨hmin, hmax, fun f' e' h' => .inl ?_⟩
  obtain ⟨rfl, rfl⟩ := Prod.mk.inj (some_inj.1 (h.symm.trans h'))
  exact hexp

theorem scaleEstimate_one : ScaleEstimate .singleFloat (0x3F800000#32) 1 := by
  refine scaleEstimate_of .singleFloat (by decide) (by decide) (by decide :
    leftAligned .singleFloat (0x3F800000#32) = some (2 ^ 23, -23)) ⟨?_, ?_⟩
  · show ¬(10 : ℚ) ^ (1 : ℤ) ≤ ((2 ^ 23 : ℕ) : ℚ) * 2 ^ (-23 : ℤ) + 2 ^ (-23 : ℤ) / 2
    norm_num
  · show (10 : ℚ) ^ (1 - 1 : ℤ) ≤ ((2 ^ 23 : ℕ) : ℚ) * 2 ^ (-23 : ℤ) + 2 ^ (-23 : ℤ) / 2
    norm_num

theorem flonum_digits_one :
    (∃ k digits, percentFlonumToDigits .singleFloat (0x3F800000#32) 1 = some (k, digits) ∧
      (∀ d ∈ digits, d < 10) ∧
      flonumToDigits .singleFloat (0x3F800000#32) 1 = some (k, digits.map digitChar) ∧
      ReadsBack .singleFloat (ordinal .singleFloat (0x3F800000#32)) (decimalValue k digits)) ∧
    (PrintsFloat .singleFloat (0x3F800000#32) 1 ↔
      ¬FarBits .singleFloat (ordinal .singleFloat (0x3F800000#32))) :=
  flonum_digits .singleFloat (0x3F800000#32) 1 (by unfold IsFinite; decide)
    (by decide) scaleEstimate_one

theorem scaleEstimate_far : ScaleEstimate .doubleFloat (BitVec.ofNat 64 (2 ^ 50)) (-308) := by
  refine scaleEstimate_of .doubleFloat (by decide) (by decide) (by decide :
    leftAligned .doubleFloat (BitVec.ofNat 64 (2 ^ 50)) = some (2 ^ 52, -1076)) ?_
  obtain ⟨⟨hlow, hhigh⟩, -⟩ := smallCheck_all .doubleFloat 50 (by decide)
  rw [show 2 ^ FloatType.doubleFloat.digits = 2 * 2 ^ 52 from rfl] at hlow hhigh
  exact isExponent_of_nat (a := smallScale .doubleFloat 50) (c :=
    smallExponent .doubleFloat 50) hlow hhigh

/-- The subnormal float `2 ^ -1024`: the digits end with a 4, where a 3 is nearer and read as the
same float. -/
theorem flonum_digits_far :
    percentFlonumToDigits .doubleFloat (BitVec.ofNat 64 (2 ^ 50)) (-308) =
        some (-308, [5, 5, 6, 2, 6, 8, 4, 6, 4, 6, 2, 6, 8, 0, 0, 4]) ∧
      ¬∀ type (bits : FloatBits type) est, IsFinite type bits → ordinal type bits ≠ 0 →
        ScaleEstimate type bits est → PrintsFloat type bits est := by
  refine ⟨by decide +kernel, fun h => ?_⟩
  have hfinite : IsFinite .doubleFloat (BitVec.ofNat 64 (2 ^ 50)) := by
    unfold IsFinite
    decide
  have hb : ordinal .doubleFloat (BitVec.ofNat 64 (2 ^ 50)) = 2 ^ 50 := by decide
  have hne : ordinal .doubleFloat (BitVec.ofNat 64 (2 ^ 50)) ≠ 0 := by
    rw [hb]
    decide
  exact (printsFloat_iff .doubleFloat hfinite hne scaleEstimate_far).1
    (h _ _ _ hfinite hne scaleEstimate_far) ⟨rfl, .inr hb⟩

end Sbcl.Printer
