import Sbcl.Reader.Float
import Sbcl.Reader.IntegerCorrect
import Sbcl.Reader.TokenCorrect

/-!
# When a truncated exponent leaves the float as it is

* `lowBound`, `highBound`, `Harmless` : the bounds of the exponents, and the literals whose float
  does not change;
* `coerce_truncate_iff` : the rational with the truncated exponent is coerced as the exact one if
  and only if they are so;
* `FloatLiteral` : the tokens that are floats, with the rational that they stand for;
* `makeFloat_token` : the reader computes the rational with the truncated exponent;
* `makeFloat_exact_iff` : the float of a literal is the float of its rational if and only if it is
  harmless.
-/

namespace Sbcl.Reader

open Sbcl.Printer BinaryFloat Numeral

/-! ## The bounds -/

theorem quotient_bounds {number divisor : ℕ} (hdivisor : 0 < divisor) :
    (number : ℚ) / divisor ≤ 2 ^ magnitude number divisor ∧
      (number ≠ 0 → (2 : ℚ) ^ (magnitude number divisor - 2) ≤ number / divisor) := by
  have hd : (0 : ℚ) < divisor := Nat.cast_pos.2 hdivisor
  have hsize : 0 < divisor.size := Nat.size_pos.2 hdivisor
  have hmagnitude : magnitude number divisor = number.size - (divisor.size - 1 : ℕ) := by
    rw [magnitude, integerLength_natCast, integerLength_natCast, Nat.cast_sub hsize]
    ring
  have hhigh : (number : ℚ) ≤ 2 ^ number.size := by exact_mod_cast (Nat.lt_size_self number).le
  have hdlow : (2 : ℚ) ^ (divisor.size - 1) ≤ divisor := by
    exact_mod_cast Nat.lt_size.1 (by omega : divisor.size - 1 < divisor.size)
  have hdhigh : (divisor : ℚ) ≤ 2 ^ divisor.size := by exact_mod_cast (Nat.lt_size_self divisor).le
  constructor
  · rw [hmagnitude, zpow_sub₀ two_ne_zero, zpow_natCast, zpow_natCast]
    exact div_le_div₀ (by positivity) hhigh (by positivity) hdlow
  intro hnumber
  have hsize' : 0 < number.size := Nat.size_pos.2 (Nat.pos_of_ne_zero hnumber)
  have hlow : (2 : ℚ) ^ (number.size - 1) ≤ number := by
    exact_mod_cast Nat.lt_size.1 (by omega : number.size - 1 < number.size)
  have hexp : magnitude number divisor - 2 = ((number.size - 1 : ℕ) : ℤ) - divisor.size := by
    rw [hmagnitude]
    omega
  rw [hexp, zpow_sub₀ two_ne_zero, zpow_natCast, zpow_natCast]
  exact div_le_div₀ (Nat.cast_nonneg _) hlow hd hdhigh

def lowBound (number divisor : ℕ) : ℤ := -((1075 + (number.size - divisor.size + 1)) / 3)

def highBound (number divisor : ℕ) : ℤ := (1075 - (number.size - divisor.size + 1)) / 3

theorem minTruncated_eq (number divisor : ℕ) :
    minTruncated number divisor = lowBound number divisor := by
  have hlog : log10 = 3 := by decide
  have hmax : maxExponent = 1075 := rfl
  rw [minTruncated, lowBound, magnitude, integerLength_natCast, integerLength_natCast, hlog, hmax,
    Rat.ceil_intCast_div_natCast, neg_neg]
  congr 2
  ring

theorem maxTruncated_eq (number divisor : ℕ) :
    maxTruncated number divisor = highBound number divisor := by
  have hlog : log10 = 3 := by decide
  have hmax : maxExponent = 1075 := rfl
  rw [maxTruncated, highBound, magnitude, integerLength_natCast, integerLength_natCast, hlog, hmax,
    Rat.floor_intCast_div_natCast]
  congr 1
  ring

variable {type : FloatType}

/-- The middle between the largest float and the power of two above it. -/
def overflowLimit (type : FloatType) : ℚ :=
  (type.format.value (type.infinity - 1) + type.format.value type.infinity) / 2

/-- An exponent that is not beyond its bound; or one with which the number at the bound is still
rounded to zero, below zero, or is still too large, from zero on. -/
def Harmless (type : FloatType) (number divisor : ℕ) (exponent : ℤ) : Prop :=
  if exponent < 0 then
    lowBound number divisor ≤ exponent ∨
      10 ^ lowBound number divisor * (number : ℚ) / divisor ≤ 2 ^ type.format.minExponent / 2
  else
    exponent ≤ highBound number divisor ∨ number = 0 ∨
      overflowLimit type ≤ 10 ^ highBound number divisor * (number : ℚ) / divisor

/-! ## Coercions -/

theorem infinity_pos (type : FloatType) : 0 < type.infinity := by cases type <;> decide

theorem coerce_zero {format : FloatFormat} (hformat : format.floatType = some type)
    {v : ℚ} (hv : 0 ≤ v) :
    coerceRational format v = .float false type 0 ↔ v ≤ 2 ^ type.format.minExponent / 2 := by
  rw [← nearest_eq_zero_iff hv]
  unfold coerceRational
  rw [hformat]
  dsimp only
  split_ifs with h
  · rw [ReadNumber.float.injEq]
    simp
  · exact iff_of_false nofun fun hzero => h (hzero ▸ infinity_pos type)

theorem coerce_overflow {format : FloatFormat} (hformat : format.floatType = some type)
    {v : ℚ} (hv : 0 ≤ v) :
    coerceRational format v = .impossibleNumberError ↔ overflowLimit type ≤ v := by
  have heven : type.infinity % 2 = 0 := by cases type <;> decide
  have h := le_nearest_iff (F := type.format) hv (infinity_pos type)
  rw [Below, if_pos (decide_eq_true heven)] at h
  rw [overflowLimit, ← h]
  unfold coerceRational
  rw [hformat]
  dsimp only
  split_ifs with hlt
  · refine iff_of_false ?_ hlt.not_ge
    rintro ⟨⟩
  · exact iff_of_true rfl (not_lt.1 hlt)

theorem overflowLimit_le (type : FloatType) {n : ℤ} (hn : 1024 ≤ n) :
    overflowLimit type ≤ 2 ^ n := by
  have hpred := (value_strictMono type.format).monotone (Nat.sub_le type.infinity 1)
  have hlimit : overflowLimit type ≤ type.format.value type.infinity := by
    rw [overflowLimit]
    linarith
  obtain ⟨j, hinfinity, hexp⟩ :
    ∃ j, type.infinity = 2 ^ (type.digits - 1) + j * 2 ^ (type.digits - 1) ∧
      ((type.digits - 1 : ℕ) : ℤ) + (type.format.minExponent + j) ≤ 1024 := by
    cases type with
    | singleFloat => exact ⟨254, by decide, by decide⟩
    | doubleFloat => exact ⟨2046, by decide, by decide⟩
  have h := value_multiple type.format (q := 2 ^ (type.digits - 1)) (j := j)
    (Nat.pow_le_pow_right two_pos (by rw [format_digits]; omega)) (.inr (by rw [format_digits]))
  rw [format_digits] at h
  refine hlimit.trans ?_
  rw [hinfinity, h]
  push_cast
  rw [← zpow_natCast, ← zpow_add₀ two_ne_zero]
  exact zpow_le_zpow_right₀ one_le_two (hexp.trans hn)

theorem beyond_bounds {number divisor : ℕ} (hdivisor : 0 < divisor) (type : FloatType)
    {exponent : ℤ} : (exponent < 0 → exponent < lowBound number divisor →
        10 ^ exponent * (number : ℚ) / divisor ≤ 2 ^ type.format.minExponent / 2) ∧
      (0 ≤ exponent → highBound number divisor < exponent → number ≠ 0 →
        overflowLimit type ≤ 10 ^ exponent * (number : ℚ) / divisor) := by
  obtain ⟨hhigh, hlow⟩ := @quotient_bounds number _ hdivisor
  have hmagnitude : magnitude number divisor = number.size - divisor.size + 1 := by
    rw [magnitude, integerLength_natCast, integerLength_natCast]
    ring
  have height : (8 : ℚ) ^ exponent = 2 ^ (3 * exponent) := by
    rw [zpow_mul]
    norm_num
  constructor
  · intro hneg hbound
    rw [lowBound] at hbound
    have hmin : -1074 ≤ type.format.minExponent := by cases type <;> decide
    have hten : (10 : ℚ) ^ exponent ≤ 8 ^ exponent := by
      obtain ⟨k, hk⟩ := Int.eq_ofNat_of_zero_le (neg_nonneg.2 hneg.le)
      rw [show exponent = -(k : ℤ) by omega, zpow_neg, zpow_neg, zpow_natCast, zpow_natCast]
      exact inv_anti₀ (by positivity) (pow_le_pow_left₀ (by norm_num) (by norm_num) k)
    calc (10 : ℚ) ^ exponent * number / divisor = 10 ^ exponent * (number / divisor) :=
      mul_div_assoc _ _ _
      _ ≤ 2 ^ (3 * exponent) * 2 ^ magnitude number divisor :=
          mul_le_mul (height ▸ hten) hhigh (by positivity) (zpow_nonneg two_pos.le _)
      _ = 2 ^ (3 * exponent + magnitude number divisor) := (zpow_add₀ two_ne_zero _ _).symm
      _ ≤ 2 ^ (type.format.minExponent - 1) := zpow_le_zpow_right₀ one_le_two (by omega)
      _ = 2 ^ type.format.minExponent / 2 := zpow_sub_one₀ two_ne_zero _
  · intro hnonneg hbound hnumber
    rw [highBound] at hbound
    have hten : (8 : ℚ) ^ exponent ≤ 10 ^ exponent :=
      zpow_le_zpow_left₀ hnonneg (by norm_num) (by norm_num)
    calc overflowLimit type
        ≤ 2 ^ (3 * exponent + (magnitude number divisor - 2)) := overflowLimit_le type (by omega)
      _ = 2 ^ (3 * exponent) * 2 ^ (magnitude number divisor - 2) := zpow_add₀ two_ne_zero _ _
      _ ≤ 10 ^ exponent * (number / divisor) :=
          mul_le_mul (height ▸ hten) (hlow hnumber) (zpow_nonneg two_pos.le _)
            (zpow_nonneg (by norm_num) _)
      _ = 10 ^ exponent * number / divisor := (mul_div_assoc _ _ _).symm

/-- The rational with the truncated exponent is coerced as the exact one if and only if the
truncation is harmless. -/
theorem coerce_truncate_iff {format : FloatFormat} (hformat : format.floatType = some type)
    {number divisor : ℕ} (hdivisor : 0 < divisor) (exponent : ℤ) :
    makeFloatAux (10 ^ truncateExponent exponent number divisor * number) divisor format =
        makeFloatAux (10 ^ exponent * number) divisor format ↔
        Harmless type number divisor exponent := by
  have hnonneg (e : ℤ) : 0 ≤ 10 ^ e * (number : ℚ) / divisor :=
    div_nonneg (mul_nonneg (zpow_nonneg (by norm_num) e) (Nat.cast_nonneg _)) (Nat.cast_nonneg _)
  obtain ⟨hlow, hhigh⟩ := @beyond_bounds number _ hdivisor type exponent
  rw [truncateExponent, minTruncated_eq, maxTruncated_eq, makeFloatAux, makeFloatAux, Harmless]
  split_ifs with hneg
  · rcases le_or_gt (lowBound number divisor) exponent with hbound | hbound
    · rw [max_eq_left hbound]
      exact iff_of_true rfl (.inl hbound)
    · rw [max_eq_right hbound.le, (coerce_zero hformat (hnonneg _)).2 (hlow hneg hbound),
        coerce_zero hformat (hnonneg _), or_iff_right hbound.not_ge]
  · rcases le_or_gt exponent (highBound number divisor) with hbound | hbound
    · rw [min_eq_left hbound]
      exact iff_of_true rfl (.inl hbound)
    rw [min_eq_right hbound.le, or_iff_right hbound.not_ge]
    by_cases hnumber : number = 0
    · rw [hnumber, Nat.cast_zero, mul_zero, mul_zero]
      exact iff_of_true rfl (.inl rfl)
    · rw [(coerce_overflow hformat (hnonneg _)).2 (hhigh (not_lt.1 hneg) hbound hnumber),
        coerce_overflow hformat (hnonneg _), or_iff_right hnumber]

/-! ## Literals -/

/-- A marker, and digits that may have a sign. -/
structure ExponentPart where
  marker : Char
  isMarker : IsMarker marker
  sign : Option Bool
  digits : List (Fin 10)
  digits_ne_nil : digits ≠ []

/-- `[sign] {decimal-digit}* dot {decimal-digit}+ [exponent] | [sign] {decimal-digit}+ [dot
{decimal-digit}*] exponent`; the sign is whether it is a minus. -/
structure FloatLiteral where
  sign : Option Bool
  whole : List (Fin 10)
  fraction : Option (List (Fin 10))
  exponent : Option ExponentPart
  legal : (∃ digits, fraction = some digits ∧ digits ≠ []) ∨ whole ≠ [] ∧ exponent.isSome

def signChars : Option Bool → List Char
  | none => []
  | some minusp => [if minusp then '-' else '+']

def digitChars (digits : List (Fin 10)) : List Char :=
  digits.map fun (d : Fin 10) => digitChar d.val

def decimalNumber (digits : List (Fin 10)) : ℕ := horner 10 0 (digits.map Fin.val)

def ExponentPart.token (e : ExponentPart) : List Char :=
  e.marker :: (signChars e.sign ++ digitChars e.digits)

def ExponentPart.value (e : ExponentPart) : ℤ :=
  if e.sign = some true then -(decimalNumber e.digits : ℤ) else decimalNumber e.digits

/-- The characters from the exponent on. -/
def tokenEnd (exponent : Option ExponentPart) : List Char := exponent.elim [] ExponentPart.token

namespace FloatLiteral

variable (l : FloatLiteral)

def fractionDigits : List (Fin 10) := l.fraction.getD []

def token : List Char :=
  signChars l.sign ++ (digitChars l.whole ++ ((match l.fraction with
    | some digits => '.' :: digitChars digits
    | none => []) ++ tokenEnd l.exponent))

/-- All digits, without the dot. -/
def number : ℕ := decimalNumber (l.whole ++ l.fractionDigits)

def divisor : ℕ := 10 ^ l.fractionDigits.length

/-- The rational that the literal stands for, without its sign. -/
def value : ℚ := 10 ^ (l.exponent.elim 0 ExponentPart.value) * l.number / l.divisor

def format (readDefaultFloatFormat : FloatFormat) : FloatFormat :=
  (l.exponent.bind fun e => markerFormat readDefaultFloatFormat e.marker).getD
    readDefaultFloatFormat

def withSign (num : ReadNumber) : ReadNumber := if l.sign = some true then num.negate else num

/-- What the exact rational of the literal is coerced to. -/
def exact (readDefaultFloatFormat : FloatFormat) : ReadNumber :=
  l.withSign (coerceRational (l.format readDefaultFloatFormat) l.value)

end FloatLiteral

variable (ucdDecimalDigit : ℕ → Option ℕ)

theorem accumulate_digitChars {σ : Type} (expr : ℕ → σ → σ) (digits : List (Fin 10))
    (rest : List Char) (state : σ) :
    accumulate ucdDecimalDigit expr (digitChars digits ++ rest) state =
      accumulate ucdDecimalDigit expr rest
        (digits.foldl (fun state (d : Fin 10) => expr d state) state) := by
  induction digits generalizing state with
  | nil => rfl
  | cons d digits ih =>
    have hd : digitCharP ucdDecimalDigit (digitChar d) 10 = some d.val :=
      @digitCharP_digitChar ucdDecimalDigit ⟨10, by decide, by decide⟩ d.val d.isLt
    rw [List.foldl_cons, ← ih]
    show accumulate ucdDecimalDigit expr (digitChar d :: (digitChars digits ++ rest)) state = _
    rw [accumulate, hd]

theorem foldl_number (digits : List (Fin 10)) (acc : ℕ) :
    digits.foldl (fun number (d : Fin 10) => number * 10 + d.val) acc =
      horner 10 acc (digits.map Fin.val) := by
  rw [horner, List.foldl_map]

theorem foldl_fraction (digits : List (Fin 10)) (divisor number : ℕ) :
    digits.foldl (fun (state : ℕ × ℕ) (d : Fin 10) => (state.1 * 10, state.2 * 10 + d.val))
      (divisor, number) =
      (divisor * 10 ^ digits.length, horner 10 number (digits.map Fin.val)) := by
  induction digits generalizing divisor number with
  | nil => rw [List.length_nil, pow_zero, Nat.mul_one]; rfl
  | cons d digits ih =>
    rw [List.foldl_cons, ih, List.length_cons, pow_succ', List.map_cons, horner_cons, Nat.mul_assoc]

theorem optionalLeadingSign_signChars (sign : Option Bool) {rest : List Char}
    (hrest : ∀ ch ∈ rest.head?, ch ≠ '-' ∧ ch ≠ '+') :
    optionalLeadingSign (signChars sign ++ rest) = (sign == some true, rest) := by
  match sign with
  | some true => rfl
  | some false => rfl
  | none =>
    cases rest with
    | nil => rfl
    | cons ch rest =>
      obtain ⟨hminus, hplus⟩ := hrest ch rfl
      show optionalLeadingSign (ch :: rest) = _
      rw [optionalLeadingSign, if_neg hminus, if_neg hplus]
      rfl

theorem marker_spec {ch : Char} (h : IsMarker ch) (readDefaultFloatFormat : FloatFormat) :
    digitCharP ucdDecimalDigit ch 10 = none ∧ ch ≠ '.' ∧ constituentTrait ch = .constituentExpt ∧
      ∃ format, markerFormat readDefaultFloatFormat ch = some format := by
  simp only [IsMarker, IsStandardMarker, List.mem_cons, List.not_mem_nil, or_false] at h
  rcases h with (rfl | rfl | rfl | rfl | rfl | rfl | rfl | rfl | rfl | rfl) | rfl | rfl <;>
    exact ⟨rfl, by decide, by decide, _, rfl⟩

/-! ## The reader -/

theorem digitChars_head {digits : List (Fin 10)} (h : digits ≠ []) (rest : List Char) :
    ∀ ch ∈ (digitChars digits ++ rest).head?, ch ≠ '-' ∧ ch ≠ '+' := by
  obtain ⟨d, digits, rfl⟩ := List.exists_cons_of_ne_nil h
  intro ch hch
  obtain rfl : digitChar d = ch := by simpa [digitChars] using hch
  obtain ⟨-, hminus, hplus, -⟩ := digitChar_ne d (d.isLt.trans (by decide))
  exact ⟨hminus, hplus⟩

theorem accumulate_exponent (digits : List (Fin 10)) :
    accumulate ucdDecimalDigit (fun digit exponent => exponent * 10 + digit) (digitChars digits) 0 =
      (decimalNumber digits, none, []) := by
  have h := accumulate_digitChars ucdDecimalDigit (fun digit exponent =>
    exponent * 10 + digit) digits [] 0
  rw [List.append_nil, foldl_number] at h
  exact h

theorem accumulate_tokenEnd {σ : Type} (expr : ℕ → σ → σ)
    (exponent : Option ExponentPart) (state : σ) :
    accumulate ucdDecimalDigit expr (tokenEnd exponent) state =
      (state, exponent.map ExponentPart.marker, exponent.elim [] fun e => signChars e.sign ++
        digitChars e.digits) := by
  cases exponent with
  | none => rfl
  | some e =>
    have h := (marker_spec ucdDecimalDigit e.isMarker .singleFloat).1
    show accumulate ucdDecimalDigit expr (e.marker :: _) state = _
    rw [accumulate, h]
    rfl

theorem readFraction_token (l : FloatLiteral) :
    readFraction ucdDecimalDigit (digitChars l.whole ++ ((match l.fraction with
      | some digits => '.' :: digitChars digits
      | none => []) ++ tokenEnd l.exponent)) =
    ((l.divisor, l.number), l.exponent.map ExponentPart.marker,
      l.exponent.elim [] fun e => signChars e.sign ++ digitChars e.digits) := by
  unfold readFraction FloatLiteral.divisor FloatLiteral.number
    FloatLiteral.fractionDigits decimalNumber
  rw [accumulate_digitChars, foldl_number]
  match l.fraction with
  | some digits =>
    have hdot (number : ℕ) (rest : List Char) :
      accumulate ucdDecimalDigit (fun digit number => number * 10 + digit)
        ('.' :: rest) number = (number, some '.', rest) := rfl
    dsimp only [List.cons_append]
    rw [hdot]
    dsimp only
    rw [if_pos rfl, accumulate_digitChars, accumulate_tokenEnd, foldl_fraction, Nat.one_mul,
      Option.getD_some, List.map_append, horner_append]
  | none =>
    rw [List.nil_append, accumulate_tokenEnd]
    dsimp only
    rw [if_neg, Option.getD_none, List.append_nil, List.length_nil, pow_zero]
    intro hdot
    obtain ⟨e, -, hmarker⟩ := Option.map_eq_some_iff.1 hdot
    exact (marker_spec ucdDecimalDigit e.isMarker .singleFloat).2.1 hmarker

theorem makeFloat_token (readDefaultFloatFormat : FloatFormat) (l : FloatLiteral) :
    makeFloat ucdDecimalDigit readDefaultFloatFormat l.token =
      some (l.withSign (makeFloatAux
        (10 ^ (l.exponent.elim 0 fun e => truncateExponent e.value l.number l.divisor) *
          l.number) l.divisor
        (l.format readDefaultFloatFormat))) := by
  have hhead : ∀ ch ∈ (digitChars l.whole ++ ((match l.fraction with
      | some digits => '.' :: digitChars digits
      | none => []) ++ tokenEnd l.exponent)).head?, ch ≠ '-' ∧ ch ≠ '+' := by
    by_cases hwhole : l.whole = []
    · obtain ⟨digits, hfraction, -⟩ := l.legal.resolve_right fun h => h.1 hwhole
      rw [hwhole, hfraction]
      intro ch hch
      obtain rfl : '.' = ch := by simpa [digitChars] using hch
      decide
    · exact digitChars_head hwhole _
  have htoken : l.token = signChars l.sign ++ (digitChars l.whole ++ ((match l.fraction with
      | some digits => '.' :: digitChars digits
      | none => []) ++ tokenEnd l.exponent)) := rfl
  have hsign (num : ReadNumber) : (if l.sign == some true then num.negate else num) =
      l.withSign num := by
    unfold FloatLiteral.withSign
    simp
  unfold makeFloat
  rw [htoken, optionalLeadingSign_signChars _ hhead]
  dsimp only
  rw [readFraction_token]
  cases hexponent : l.exponent with
  | none =>
    dsimp only [Option.map_none, Option.elim]
    rw [hsign, zpow_zero, one_mul, FloatLiteral.format, hexponent]
    rfl
  | some e =>
    obtain ⟨-, -, htrait, format, hformat⟩ :=
      marker_spec ucdDecimalDigit e.isMarker readDefaultFloatFormat
    have hexponentHead := digitChars_head e.digits_ne_nil []
    rw [List.append_nil] at hexponentHead
    have hvalue :
        (if e.sign == some true then -(decimalNumber e.digits : ℤ) else decimalNumber e.digits) =
          e.value := by
      unfold ExponentPart.value
      simp
    dsimp only [Option.map_some, Option.elim]
    rw [if_pos htrait, FloatLiteral.format, hexponent, Option.bind_some, hformat]
    simp only [optionalLeadingSign_signChars _ hexponentHead, accumulate_exponent, hvalue, hsign]
    rfl

/-- The float of a literal is the float that its exact rational is coerced to, or the same error, if
and only if it has no exponent, or one of which the truncation is harmless. -/
theorem makeFloat_exact_iff (readDefaultFloatFormat : FloatFormat) (l : FloatLiteral)
    (htype : (l.format readDefaultFloatFormat).floatType = some type) :
    makeFloat ucdDecimalDigit readDefaultFloatFormat l.token =
      some (l.exact readDefaultFloatFormat) ↔
      ∀ e ∈ l.exponent, Harmless type l.number l.divisor e.value := by
  have hdivisor : 0 < l.divisor := Nat.pow_pos (by decide)
  have hnegate : Function.Injective ReadNumber.negate := by
    intro x y h
    cases x <;> cases y <;> simp_all [ReadNumber.negate]
  have hwithSign : Function.Injective l.withSign := by
    intro x y h
    unfold FloatLiteral.withSign at h
    split_ifs at h
    · exact hnegate h
    · exact h
  rw [makeFloat_token, FloatLiteral.exact, FloatLiteral.value, Option.some_inj, hwithSign.eq_iff]
  cases hexponent : l.exponent with
  | none => simp [makeFloatAux]
  | some e =>
    have h := @coerce_truncate_iff type _ htype l.number _ hdivisor e.value
    simp only [Option.mem_def, Option.some_inj, forall_eq']
    exact h

/-- `1.5d0`. -/
theorem makeFloat_exact_iff_short :
    let l : FloatLiteral :=
      ⟨none, [1], some [5], some ⟨'d', by decide, none, [0], by decide⟩, .inl ⟨[5], rfl, by decide⟩⟩
    makeFloat (fun _ => none) .singleFloat l.token = some (l.exact .singleFloat) := by
  refine (makeFloat_exact_iff (fun _ => none) .singleFloat _ rfl).2 fun e he => ?_
  obtain rfl := Option.some_inj.1 he
  exact .inl (by decide)

theorem horner_replicate_zero (b acc n : ℕ) : horner b acc (List.replicate n 0) = acc * b ^ n := by
  induction n generalizing acc with
  | zero => rw [pow_zero, Nat.mul_one]; rfl
  | succ n ih => rw [List.replicate_succ, horner_cons, ih, Nat.add_zero, pow_succ', Nat.mul_assoc]

/-- `1d0` with zeros before the marker. -/
def zerosLiteral (zeros : ℕ) : FloatLiteral :=
  ⟨none, 1 :: List.replicate zeros 0, none, some ⟨'d', by decide, none, [0], by decide⟩,
    .inr ⟨List.cons_ne_nil _ _, rfl⟩⟩

theorem zerosLiteral_number (zeros : ℕ) : (zerosLiteral zeros).number = 10 ^ zeros := by
  have hdigits : ((zerosLiteral zeros).whole ++ (zerosLiteral zeros).fractionDigits).map Fin.val =
      1 :: List.replicate zeros 0 := by
    simp [zerosLiteral, FloatLiteral.fractionDigits]
  rw [FloatLiteral.number, decimalNumber, hdigits, horner_cons, horner_replicate_zero, Nat.zero_mul,
    Nat.zero_add, Nat.one_mul]

/-- `1`, five hundred zeros and `d0`, of which the exponent is truncated to -196. -/
theorem makeFloat_ne_exact :
    makeFloat (fun _ => none) .singleFloat (zerosLiteral 500).token ≠
      some ((zerosLiteral 500).exact .singleFloat) := by
  intro h
  rw [makeFloat_token] at h
  have hharmless :=
    (@coerce_truncate_iff .doubleFloat .doubleFloat rfl (zerosLiteral 500).number 1 one_pos 0).1
      (Option.some_inj.1 h)
  rw [zerosLiteral_number, Harmless, if_neg (lt_irrefl 0)] at hharmless
  have hsize : Nat.size (10 ^ 500) = 1661 :=
    le_antisymm (Nat.size_le.2 (by decide +kernel)) (Nat.lt_size.2 (by decide +kernel))
  have hbound : highBound (10 ^ 500) 1 = -196 := by
    rw [highBound, hsize, Nat.size_one]
    rfl
  rw [hbound] at hharmless
  rcases hharmless with hle | hzero | hlimit
  · exact absurd hle (by decide)
  · exact absurd hzero (pow_ne_zero 500 (by decide))
  -- The largest float is above `1d304`.
  have hlargest := value_multiple FloatType.doubleFloat.format (q := 2 ^ 53 - 1) (j :=
    2045) (by decide) (.inr (by decide))
  have hmono :=
    (value_strictMono FloatType.doubleFloat.format).monotone
      (Nat.sub_le FloatType.doubleFloat.infinity 1)
  have hpred : FloatType.doubleFloat.infinity - 1 =
      2 ^ 53 - 1 + 2045 * 2 ^ (FloatType.doubleFloat.format.digits - 1) := by decide
  have hexp : FloatType.doubleFloat.format.minExponent + (2045 : ℕ) = (971 : ℕ) := by decide
  have hvalue : (10 : ℚ) ^ (-196 : ℤ) * ((10 ^ 500 : ℕ) : ℚ) / (1 : ℕ) = (10 ^ 304 : ℕ) := by
    rw [Nat.cast_one, div_one, Nat.cast_pow, Nat.cast_pow, ← zpow_natCast,
      ← zpow_natCast, Nat.cast_ofNat, ← zpow_add₀ (by norm_num)]
    rfl
  have hlt : 10 ^ 304 < (2 ^ 53 - 1) * 2 ^ 971 := by decide +kernel
  have hlt' : ((10 ^ 304 : ℕ) : ℚ) < ((2 ^ 53 - 1 : ℕ) : ℚ) * 2 ^ 971 := by exact_mod_cast hlt
  rw [hvalue, overflowLimit] at hlimit
  rw [hexp, zpow_natCast, ← hpred] at hlargest
  rw [← hlargest] at hlt'
  linarith

end Sbcl.Reader
