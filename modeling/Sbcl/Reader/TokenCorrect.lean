import Sbcl.Lib.Letter
import Sbcl.Reader.Token

/-!
# Which tokens are numbers

* `integer`, `decimalInteger`, `ratio`, `float` : the grammar of numbers, floats with the exponent
  markers of a predicate;
* `Kind`, `facts` : what the classes, the variables and the grammar say of a standard constituent;
* `residual` : after a label, the words that complete a number;
* `step_agrees`, `run_agrees`, `readToken_agrees` : each label leaves to a number where its words
  do.
-/

namespace Sbcl.Reader

open Sbcl.Printer Language List
open scoped Computability

def IsSign (char : Char) : Prop := char = '+' ∨ char = '-'

def IsDecimalDigit (char : Char) : Prop := '0' ≤ char ∧ char ≤ '9'

/-- A digit of the base: a decimal digit, or a letter in either case, of a weight below the base. -/
def IsDigit (base : Base) (char : Char) : Prop :=
  '0' ≤ char ∧ char ≤ '9' ∧ char.toNat - 48 < base.val ∨
    'A' ≤ char ∧ char ≤ 'Z' ∧ char.toNat - 55 < base.val ∨
    'a' ≤ char ∧ char ≤ 'z' ∧ char.toNat - 87 < base.val

/-- The exponent markers of the standard. -/
def IsStandardMarker (char : Char) : Prop :=
  char ∈ ['D', 'E', 'F', 'L', 'S', 'd', 'e', 'f', 'l', 's']

/-- The exponent markers of the constituent traits: `R` is an extension. -/
def IsMarker (char : Char) : Prop := IsStandardMarker char ∨ char = 'R' ∨ char = 'r'

instance : DecidablePred IsSign := fun _ => inferInstanceAs (Decidable (_ ∨ _))
instance : DecidablePred IsDecimalDigit := fun _ => inferInstanceAs (Decidable (_ ∧ _))
instance (base : Base) : DecidablePred (IsDigit base) :=
  fun _ => inferInstanceAs (Decidable (_ ∨ _))
instance : DecidablePred IsStandardMarker := fun _ => inferInstanceAs (Decidable (_ ∈ _))
instance : DecidablePred IsMarker := fun _ => inferInstanceAs (Decidable (_ ∨ _))

def sign : Language Char := letter IsSign
def decimal : Language Char := letter IsDecimalDigit
def digit (base : Base) : Language Char := letter (IsDigit base)
def dot : Language Char := letter (· = '.')
def slash : Language Char := letter (· = '/')

/-- An exponent with a marker of which `marker` holds. -/
def exponent (marker : Char → Prop) : Language Char :=
  letter marker * ((1 + sign) * (decimal * decimal∗))

/-- `[sign] {digit}+`. -/
def integer (base : Base) : Language Char := (1 + sign) * (digit base * (digit base)∗)

/-- `[sign] {decimal-digit}+ dot`. -/
def decimalInteger : Language Char := (1 + sign) * (decimal * (decimal∗ * dot))

/-- `[sign] {digit}+ slash {digit}+`. -/
def ratio (base : Base) : Language Char :=
  (1 + sign) * (digit base * ((digit base)∗ * (slash * (digit base * (digit base)∗))))

/-- `[sign] {decimal-digit}* dot {decimal-digit}+ [exponent] | [sign] {decimal-digit}+ [dot
{decimal-digit}*] exponent`. -/
def float (marker : Char → Prop) : Language Char :=
  (1 + sign) * (decimal∗ * (dot * (decimal * (decimal∗ * (1 + exponent marker))))) +
    (1 + sign) * (decimal * (decimal∗ * ((1 + dot * decimal∗) * exponent marker)))

/-- A character of the standard syntax type constituent, unescaped. -/
def IsStandardConstituent (char : Char) : Prop := char.toNat < 128 ∧ charSyntax char = .constituent

instance : DecidablePred IsStandardConstituent := fun _ => inferInstanceAs (Decidable (_ ∧ _))

/-- What may follow a token: nothing, or whitespace, or a terminating macro character. -/
def Delimited (tail : List Char) : Prop :=
  ∀ char ∈ tail.head?, charSyntax char = .whitespace ∨ charSyntax char = .terminatingMacro

/-! ## Kinds of characters -/

inductive Kind where
  | digit | decimalDigit | letterDigit | digitOrExpt | expt | dot | slash | sign | packageDelimiter | invalid | other
deriving DecidableEq

namespace Kind

@[simp] def isDigit : Kind → Bool
  | .digit | .letterDigit | .digitOrExpt => true
  | _ => false

@[simp] def isDecimalDigit : Kind → Bool
  | .digit | .decimalDigit => true
  | _ => false

@[simp] def isMarker : Kind → Bool
  | .digitOrExpt | .expt => true
  | _ => false

/-- The class of a character, where the digits and the exponent markers are of the classes given. -/
@[simp] def attr (digit decimalDigit letterDigit digitOrExpt : CharAttr) (e : ReaderError) :
    Kind → Except ReaderError CharAttr
  | .digit => .ok digit
  | .decimalDigit => .ok decimalDigit
  | .letterDigit => .ok letterDigit
  | .digitOrExpt => .ok digitOrExpt
  | .expt => .ok .constituentExpt
  | .dot => .ok .constituentDot
  | .slash => .ok .constituentSlash
  | .sign => .ok .constituentSign
  | .packageDelimiter => .ok .packageDelimiter
  | .invalid => .error e
  | .other => .ok .constituent

end Kind

/-- The kind of a character, of which `isDigit` says whether it is a digit of the base. -/
def kind (isDigit : Bool) (char : Char) : Kind :=
  if isDigit then
    if IsDecimalDigit char then .digit else if IsMarker char then .digitOrExpt else .letterDigit
  else if IsDecimalDigit char then .decimalDigit
  else if IsMarker char then .expt
  else if char = '.' then .dot
  else if char = '/' then .slash
  else if IsSign char then .sign
  else if char = ':' then .packageDelimiter
  else if constituentTrait char = .invalid then .invalid
  else .other

/-- What is known of a character of a kind. -/
structure Facts (ucdDecimalDigit : ℕ → Option ℕ) (base : Base) (char : Char) (k : Kind) : Prop where
  class1 : charClass char =
    k.attr .constituentDigit .constituentDigit .constituent .constituentExpt .invalidConstituent
  class2 : charClass2 ucdDecimalDigit char base =
    k.attr .constituentDigit .constituent .constituentDigit .constituentDigit .invalidConstituent
  class3 : charClass3 ucdDecimalDigit char base =
    k.attr .constituentDigit .constituentDecimalDigit .constituentDigit .constituentDigitOrExpt
    (.invalidConstituentChar char)
  flags : ∀ flags, classFlags ucdDecimalDigit char base flags =
    { flags with
      possiblyRational := flags.possiblyRational && (k.isDigit || k = .slash)
      possiblyFloat := flags.possiblyFloat && (k.isDecimalDigit || k = .dot) }
  digit : IsDigit base char ↔ k.isDigit
  decimalDigit : IsDecimalDigit char ↔ k.isDecimalDigit
  marker : IsMarker char ↔ k.isMarker
  dot : char = '.' ↔ k = .dot
  slash : char = '/' ↔ k = .slash
  sign : IsSign char ↔ k = .sign
  base_lt : k = .decimalDigit → base.val < 10
  lt_base : k = .digitOrExpt → 10 < base.val

section Facts

variable {ucdDecimalDigit : ℕ → Option ℕ} {base : Base} {char : Char}

theorem digitCharP_isSome (h : char.toNat < 128) :
    (digitCharP ucdDecimalDigit char base.val).isSome = decide (IsDigit base char) := by
  have hge (c : Char) : c ≤ char ↔ c.toNat ≤ char.toNat := Iff.rfl
  have hle (c : Char) : char ≤ c ↔ char.toNat ≤ c.toNat := Iff.rfl
  -- Of the codes, those of letters are the ones that are a weight from 10 to 35 in lower case.
  have hlower : ∀ n < 128,
      (97 ≤ n ∧ n ≤ 122 → 32 ||| n = n) ∧ (65 ≤ n ∧ n ≤ 90 → 32 ||| n = n + 32) ∧
        (97 ≤ 32 ||| n ∧ 32 ||| n < 123 → 97 ≤ n ∧ n ≤ 122 ∨ 65 ≤ n ∧ n ≤ 90) := by decide
  have hlower := hlower char.toNat h
  have h36 := base.le_36
  unfold digitCharP IsDigit
  simp only [hge, hle, Char.reduceToNat]
  rw [if_pos (by omega)]
  generalize 32 ||| char.toNat = lower at *
  generalize char.toNat = code at *
  split_ifs <;> simp <;> omega

theorem isDigit_ten : IsDigit ⟨10, by decide, by decide⟩ char ↔ IsDecimalDigit char := by
  have hge (c : Char) : c ≤ char ↔ c.toNat ≤ char.toNat := Iff.rfl
  have hle (c : Char) : char ≤ c ↔ char.toNat ≤ c.toNat := Iff.rfl
  unfold IsDigit IsDecimalDigit
  simp only [hge, hle, Char.reduceToNat]
  omega

theorem isDigit_of_isDecimalDigit (hbase : 10 ≤ base.val) (h : IsDecimalDigit char) :
    IsDigit base char := by
  have hle : char.toNat ≤ 57 := h.2
  exact .inl ⟨h.1, h.2, by omega⟩

theorem isDecimalDigit_of_isDigit (hbase : base.val ≤ 10) (h : IsDigit base char) :
    IsDecimalDigit char := by
  rcases h with ⟨h0, h9, _⟩ | ⟨hA, _, hw⟩ | ⟨ha, _, hw⟩
  · exact ⟨h0, h9⟩
  · have hA : 65 ≤ char.toNat := hA
    omega
  · have ha : 97 ≤ char.toNat := ha
    omega

theorem digitCharP_ten (h : char.toNat < 128) :
    (digitCharP ucdDecimalDigit char 10).isSome = decide (IsDecimalDigit char) := by
  rw [← decide_eq_decide.2 isDigit_ten]
  exact @digitCharP_isSome _ ⟨10, by decide, by decide⟩ _ h

theorem digitCharP_max (h : char.toNat < 128) :
    (digitCharP ucdDecimalDigit char (max base.val 10)).isSome =
      (decide (IsDigit base char) || decide (IsDecimalDigit char)) := by
  rw [← Bool.decide_or]
  rcases Nat.le_total base.val 10 with hbase | hbase
  · rw [max_eq_right hbase, digitCharP_ten h]
    exact decide_eq_decide.2 ⟨.inr, fun h => h.elim (isDecimalDigit_of_isDigit hbase) id⟩
  · rw [max_eq_left hbase, digitCharP_isSome h]
    exact decide_eq_decide.2 ⟨.inl, fun h => h.elim id (isDigit_of_isDecimalDigit hbase)⟩

theorem isDigit_36 (h : IsDigit base char) : IsDigit ⟨36, by decide, le_rfl⟩ char := by
  have h36 := base.le_36
  have hlt {n : ℕ} (hn : n < base.val) : n < 36 := hn.trans_le h36
  exact h.imp (fun h => ⟨h.1, h.2.1, hlt h.2.2⟩) (Or.imp (fun h => ⟨h.1, h.2.1, hlt h.2.2⟩) fun h =>
    ⟨h.1, h.2.1, hlt h.2.2⟩)

theorem kind_class : ∀ n : Fin 128, ∀ isDigit : Bool, charSyntax (Char.ofNat n) = .constituent →
    (isDigit → IsDigit ⟨36, by decide, le_rfl⟩ (Char.ofNat n)) →
    let char := Char.ofNat n
    let k := kind isDigit char
    let trait := constituentTrait char
    (if trait = .invalid then .error .invalidConstituent else .ok trait) =
        k.attr .constituentDigit .constituentDigit .constituent .constituentExpt
          .invalidConstituent ∧
      (if isDigit then .ok .constituentDigit else if trait = .constituentDigit then .ok .constituent
        else if trait = .invalid then .error .invalidConstituent else .ok trait) =
        k.attr .constituentDigit .constituent .constituentDigit .constituentDigit
          .invalidConstituent ∧
      (if isDigit || decide (IsDecimalDigit char) then
          if isDigit then if trait = .constituentExpt then .ok .constituentDigitOrExpt
            else .ok .constituentDigit
          else .ok .constituentDecimalDigit
        else if trait = .invalid then .error (.invalidConstituentChar char) else .ok trait) =
        k.attr .constituentDigit .constituentDecimalDigit .constituentDigit .constituentDigitOrExpt
          (.invalidConstituentChar char) := by
  decide

theorem kind_spec : ∀ n : Fin 128, ∀ isDigit : Bool, charSyntax (Char.ofNat n) = .constituent →
    (isDigit → IsDigit ⟨36, by decide, le_rfl⟩ (Char.ofNat n)) →
    let char := Char.ofNat n
    let k := kind isDigit char
    (constituentTrait char = .constituentSlash ↔ k = .slash) ∧
    (constituentTrait char = .constituentDot ↔ k = .dot) ∧
      isDigit = k.isDigit ∧ decide (IsDecimalDigit char) = k.isDecimalDigit ∧
      (IsMarker char ↔ k.isMarker) ∧
      (char = '.' ↔ k = .dot) ∧ (char = '/' ↔ k = .slash) ∧ (IsSign char ↔ k = .sign) := by
  decide

theorem facts (h : IsStandardConstituent char) :
    Facts ucdDecimalDigit base char (kind (decide (IsDigit base char)) char) := by
  have hclass := kind_class ⟨char.toNat, h.1⟩ (decide (IsDigit base char))
  have hspec := kind_spec ⟨char.toNat, h.1⟩ (decide (IsDigit base char))
  simp only [Char.ofNat_toNat] at hclass hspec
  obtain ⟨hclass1, hclass2, hclass3⟩ := hclass h.2 fun hd => isDigit_36 (of_decide_eq_true hd)
  obtain ⟨hslash, hdot, hdigit, hdecimal, hmarker, hcdot, hcslash, hsign⟩ :=
    hspec h.2 fun hd => isDigit_36 (of_decide_eq_true hd)
  generalize kind (decide (IsDigit base char)) char = k at *
  refine ⟨?_, ?_, ?_, ?_, ?_, ?_, hmarker, hcdot, hcslash, hsign, ?_, ?_⟩
  · unfold charClass
    rw [h.2]
    exact hclass1
  · unfold charClass2
    rw [h.2, digitCharP_isSome h.1]
    exact hclass2
  · unfold charClass3
    rw [h.2, digitCharP_isSome h.1, digitCharP_max h.1]
    exact hclass3
  · intro flags
    unfold classFlags
    rw [h.2, digitCharP_isSome h.1, digitCharP_ten h.1, decide_eq_decide.2 hslash,
      decide_eq_decide.2 hdot, hdigit, hdecimal]
  · rw [← hdigit, decide_eq_true_eq]
  · rw [← hdecimal, decide_eq_true_eq]
  · intro hk
    subst hk
    by_contra hge
    exact of_decide_eq_false hdigit
      (isDigit_of_isDecimalDigit (not_lt.1 hge) (of_decide_eq_true hdecimal))
  · intro hk
    subst hk
    by_contra hge
    exact of_decide_eq_false hdecimal
      (isDecimalDigit_of_isDigit (not_lt.1 hge) (of_decide_eq_true hdigit))

end Facts

/-! ## What completes a number -/

/-- What completes an exponent after its marker. -/
def exponentRest : Language Char := (1 + sign) * (decimal * decimal∗)

/-- What completes a float after a digit of its fraction. -/
def fraction : Language Char := decimal∗ * (1 + exponent IsMarker)

/-- What completes a float after its decimal digits and its dot. -/
def afterDot : Language Char := decimal * fraction + exponent IsMarker

/-- What completes a float after one of the decimal digits it begins with. -/
def afterDecimal : Language Char := decimal∗ * (dot * afterDot + exponent IsMarker)

def unsignedFloat : Language Char := dot * (decimal * fraction) + decimal * afterDecimal

/-- What completes a decimal integer after one of its digits. -/
def decimalRest : Language Char := decimal∗ * dot

/-- What completes a ratio after a digit of its numerator. -/
def ratioRest (base : Base) : Language Char :=
  (digit base)∗ * (slash * (digit base * (digit base)∗))

theorem fraction_add : decimal * fraction + decimal∗ * exponent IsMarker = afterDot := by
  have hmany :
      decimal∗ * exponent IsMarker = exponent IsMarker + decimal * (decimal∗ * exponent IsMarker) :=
    many_mul_eq _ _
  unfold afterDot fraction
  rw [hmany, mul_add, mul_one, mul_add, add_comm (exponent IsMarker), ← add_assoc,
    add_assoc (decimal * decimal∗), add_self]

theorem float_eq : float IsMarker = (1 + sign) * unsignedFloat := by
  have hmany : decimal∗ * (dot * (decimal * fraction)) =
      dot * (decimal * fraction) + decimal * (decimal∗ * (dot * (decimal * fraction))) :=
        many_mul_eq _ _
  show (1 + sign) * (decimal∗ * (dot * (decimal * fraction))) + _ = _
  rw [← mul_add, hmany]
  congr 1
  unfold unsignedFloat afterDecimal
  rw [← fraction_add]
  simp only [add_mul, mul_add, one_mul, mul_assoc]
  ac_rfl

section First

variable {base : Base} {L : Language Char} {char : Char} {s : List Char}

@[simp] theorem cons_mem_decimal_mul : char :: s ∈ decimal * L ↔ IsDecimalDigit char ∧ s ∈ L :=
  cons_mem_mul
@[simp] theorem cons_mem_digit_mul : char :: s ∈ digit base * L ↔ IsDigit base char ∧ s ∈ L :=
  cons_mem_mul
@[simp] theorem cons_mem_decimals : char :: s ∈ decimal∗ ↔ IsDecimalDigit char ∧ s ∈ decimal∗ :=
  cons_mem_many
@[simp] theorem cons_mem_digits : char :: s ∈ (digit base)∗ ↔ IsDigit base char ∧
    s ∈ (digit base)∗ := cons_mem_many
@[simp] theorem nil_notMem_decimal_mul : [] ∉ decimal * L := nil_notMem_mul
@[simp] theorem nil_notMem_digit_mul : [] ∉ digit base * L := nil_notMem_mul

theorem cons_mem_opt_sign : char :: s ∈ (1 + sign) * L ↔ IsSign char ∧ s ∈ L ∨ char :: s ∈ L := by
  rw [add_mul, one_mul, mem_add, or_comm]
  exact or_congr_left cons_mem_mul

theorem nil_mem_opt_sign : [] ∈ (1 + sign) * L ↔ [] ∈ L := by
  rw [add_mul, one_mul, mem_add]
  exact or_iff_left nil_notMem_mul

theorem cons_mem_exponent : char :: s ∈ exponent IsMarker ↔ IsMarker char ∧ s ∈ exponentRest :=
  cons_mem_mul

theorem nil_notMem_exponent : [] ∉ exponent IsMarker := nil_notMem_mul

@[simp] theorem cons_mem_exponentRest :
    char :: s ∈ exponentRest ↔ IsSign char ∧ s ∈ decimal * decimal∗ ∨ IsDecimalDigit char ∧
    s ∈ decimal∗ := by
  unfold exponentRest
  rw [cons_mem_opt_sign, cons_mem_decimal_mul]

@[simp] theorem nil_notMem_exponentRest : [] ∉ exponentRest :=
  fun h => nil_notMem_decimal_mul (nil_mem_opt_sign.1 h)

@[simp] theorem cons_mem_fraction :
    char :: s ∈ fraction ↔ IsDecimalDigit char ∧ s ∈ fraction ∨ IsMarker char ∧
    s ∈ exponentRest := by
  unfold fraction decimal
  rw [cons_mem_many_mul, mem_add, mem_one, cons_mem_exponent, or_iff_right (cons_ne_nil _ _)]

@[simp] theorem nil_mem_fraction : [] ∈ fraction := nil_mem_many_mul.2 (.inl rfl)

@[simp] theorem cons_mem_afterDot :
    char :: s ∈ afterDot ↔ IsDecimalDigit char ∧ s ∈ fraction ∨ IsMarker char ∧
    s ∈ exponentRest := by
  unfold afterDot
  rw [mem_add, cons_mem_decimal_mul, cons_mem_exponent]

@[simp] theorem nil_notMem_afterDot : [] ∉ afterDot :=
  fun h => h.elim nil_notMem_decimal_mul nil_notMem_exponent

@[simp] theorem cons_mem_afterDecimal :
    char :: s ∈ afterDecimal ↔
      IsDecimalDigit char ∧ s ∈ afterDecimal ∨ char = '.' ∧ s ∈ afterDot ∨ IsMarker char ∧
      s ∈ exponentRest := by
  unfold afterDecimal decimal dot
  rw [cons_mem_many_mul, mem_add, cons_mem_mul, cons_mem_exponent]

@[simp] theorem nil_notMem_afterDecimal : [] ∉ afterDecimal :=
  fun h => (nil_mem_many_mul.1 h).elim nil_notMem_mul nil_notMem_exponent

@[simp] theorem cons_mem_unsignedFloat :
    char :: s ∈ unsignedFloat ↔ char = '.' ∧ s ∈ decimal * fraction ∨ IsDecimalDigit char ∧
    s ∈ afterDecimal := by
  unfold unsignedFloat dot
  rw [mem_add, cons_mem_mul, cons_mem_decimal_mul]

@[simp] theorem nil_notMem_unsignedFloat : [] ∉ unsignedFloat :=
  fun h => h.elim nil_notMem_mul nil_notMem_decimal_mul

@[simp] theorem cons_mem_decimalRest :
    char :: s ∈ decimalRest ↔ IsDecimalDigit char ∧ s ∈ decimalRest ∨ char = '.' ∧ s = [] := by
  unfold decimalRest decimal dot
  rw [cons_mem_many_mul, cons_mem_letter]

@[simp] theorem nil_notMem_decimalRest : [] ∉ decimalRest :=
  fun h => nil_notMem_letter (nil_mem_many_mul.1 h)

@[simp] theorem cons_mem_ratioRest :
    char :: s ∈ ratioRest base ↔
      IsDigit base char ∧ s ∈ ratioRest base ∨ char = '/' ∧ s ∈ digit base * (digit base)∗ := by
  unfold ratioRest digit slash
  rw [cons_mem_many_mul, cons_mem_mul]

@[simp] theorem nil_notMem_ratioRest : [] ∉ ratioRest base :=
  fun h => nil_notMem_mul (nil_mem_many_mul.1 h)

end First

/-- The words that complete a number, by the number that they complete. -/
structure Residual where
  integer : Language Char
  decimalInteger : Language Char
  ratio : Language Char
  float : Language Char

/-- The words that complete a number after a label, of a token that was possibly a float or not. -/
def residual (base : Base) (possiblyFloat : Bool) : Label → Residual
  | .sign => ⟨digit base * (digit base)∗, decimal * decimalRest,
    digit base * ratioRest base, unsignedFloat⟩
  | .leftDigit =>
    ⟨(digit base)∗, if possiblyFloat then decimalRest else 0, ratioRest base,
      if possiblyFloat then afterDecimal else 0⟩
  | .leftDigitOrExpt => ⟨(digit base)∗, 0, ratioRest base, exponentRest⟩
  | .leftDecimalDigit => ⟨0, decimalRest, 0, afterDecimal⟩
  | .middleDot => ⟨0, 1, 0, afterDot⟩
  | .rightDigit => ⟨0, 0, 0, fraction⟩
  | .signDot | .frontDot => ⟨0, 0, 0, decimal * fraction⟩
  | .exponent => ⟨0, 0, 0, exponentRest⟩
  | .exptSign => ⟨0, 0, 0, decimal * decimal∗⟩
  | .exptDigit => ⟨0, 0, 0, decimal∗⟩
  | .ratio => ⟨0, 0, digit base * (digit base)∗, 0⟩
  | .ratioDigit => ⟨0, 0, (digit base)∗, 0⟩
  | .dots => ⟨0, 0, 0, 0⟩

/-- What the variables are at a label. -/
def Known (base : Base) (flags : Flags) : Label → Prop
  | .sign => flags.seenDigitOrExpt = false
  | .leftDigit => flags.possiblyRational = true ∧
    (flags.possiblyFloat = true → flags.seenDigitOrExpt = false)
  | .leftDigitOrExpt => flags.possiblyRational = true ∧ flags.possiblyFloat = false ∧ 10 < base.val
  | .leftDecimalDigit => flags.possiblyRational = false ∧ flags.possiblyFloat = true
  | _ => True

/-- The labels are left to a number of the kind that the word completes, to an integer where it
completes both an integer and a float, and else to a symbol or to an error. -/
@[mk_iff] structure Agrees (base : Base) (outcome : Outcome) (r : Residual)
    (s : List Char) : Prop where
  integer : ∀ b, outcome = .makeInteger b ↔ s ∈ r.integer ∧ b = base.val ∨
    s ∈ r.decimalInteger ∧ b = 10
  ratio : outcome = .makeRatio ↔ s ∈ r.ratio
  float : outcome = .makeFloat ↔ s ∈ r.float ∧ s ∉ r.integer
  bug : outcome ≠ .bug
  singleEscape : outcome ≠ .singleEscape
  multEscape : outcome ≠ .multEscape

theorem Agrees.congr {base : Base} {outcome : Outcome} {r r' : Residual} {s s' : List Char}
    (h : Agrees base outcome r' s') (hinteger : s ∈ r.integer ↔ s' ∈ r'.integer)
    (hdecimal : s ∈ r.decimalInteger ↔ s' ∈ r'.decimalInteger)
    (hratio : s ∈ r.ratio ↔ s' ∈ r'.ratio)
    (hfloat : s ∈ r.float ∧ s ∉ r.integer ↔ s' ∈ r'.float ∧ s' ∉ r'.integer) :
    Agrees base outcome r s where
  integer b := by rw [hinteger, hdecimal]; exact h.integer b
  ratio := by rw [hratio]; exact h.ratio
  float := by rw [hfloat]; exact h.float
  bug := h.bug
  singleEscape := h.singleEscape
  multEscape := h.multEscape

/-- A step goes to a label after which the rest of the word completes the same numbers. -/
def StepAgrees (base : Base) (r : Residual) (char : Char) (rest : List Char) : Step → Prop
  | .go label flags =>
    Known base flags label ∧
      (char :: rest ∈ r.integer ↔ rest ∈ (residual base flags.possiblyFloat label).integer) ∧
      (char :: rest ∈ r.decimalInteger ↔
        rest ∈ (residual base flags.possiblyFloat label).decimalInteger) ∧
      (char :: rest ∈ r.ratio ↔ rest ∈ (residual base flags.possiblyFloat label).ratio) ∧
      (char :: rest ∈ r.float ∧ char :: rest ∉ r.integer ↔
        rest ∈ (residual base flags.possiblyFloat label).float ∧
        rest ∉ (residual base flags.possiblyFloat label).integer)
  | .leave outcome => Agrees base outcome r (char :: rest)

section Steps

attribute [simp] caseClass otherwise goLeftDecimalDigit

variable {ucdDecimalDigit : ℕ → Option ℕ} {base : Base} {char : Char} {k : Kind} {flags : Flags}
    {rest : List Char}

theorem decimals_subset_digits (hbase : 10 ≤ base.val) (h : rest ∈ decimal∗) :
    rest ∈ (digit base)∗ :=
  many_subset (fun _ _ => isDigit_of_isDecimalDigit hbase) h

theorem step_sign (hknown : Known base flags .sign) (h : Facts ucdDecimalDigit base char k) :
    StepAgrees base (residual base flags.possiblyFloat .sign) char rest
      (step ucdDecimalDigit base flags char .sign) := by
  have hseen : flags.seenDigitOrExpt = false := hknown
  unfold step
  rw [h.class3, h.flags]
  cases k with
  | _ => simp [StepAgrees, residual, Known, agrees_iff, h.digit, h.decimalDigit, h.dot, hseen]

theorem step_leftDigit (hknown : Known base flags .leftDigit)
    (h : Facts ucdDecimalDigit base char k) :
    StepAgrees base (residual base flags.possiblyFloat .leftDigit) char rest
      (step ucdDecimalDigit base flags char .leftDigit) := by
  have hbase := h.lt_base
  obtain ⟨possiblyRational, seen, possiblyFloat, was⟩ := flags
  obtain ⟨hrational, hseen⟩ := hknown
  subst hrational
  unfold step
  dsimp only
  rw [h.class3, h.flags]
  cases k with
  | _ =>
    cases possiblyFloat with
    | false =>
      cases seen with
      | _ => simp [StepAgrees, residual, Known, agrees_iff, h.digit, h.slash]
    | true =>
      have hseen := hseen rfl
      subst hseen
      simp [StepAgrees, residual, Known, agrees_iff, h.digit, h.decimalDigit, h.marker,
        h.dot, h.slash, hbase]

theorem step_leftDigitOrExpt (hknown : Known base flags .leftDigitOrExpt)
    (h : Facts ucdDecimalDigit base char k) :
    StepAgrees base (residual base flags.possiblyFloat .leftDigitOrExpt) char rest
      (step ucdDecimalDigit base flags char .leftDigitOrExpt) := by
  have hbase := h.base_lt
  obtain ⟨hrational, hfloat, hlt⟩ := hknown
  have hsubset : rest ∈ decimal∗ → rest ∈ (digit base)∗ := decimals_subset_digits hlt.le
  unfold step
  dsimp only
  rw [h.class3, h.flags]
  cases k with
  | decimalDigit => exact absurd (hbase rfl) hlt.le.not_gt
  | _ =>
    simp [StepAgrees, residual, Known, agrees_iff, h.digit, h.decimalDigit, h.slash, h.sign,
      hrational, hfloat]
    try exact hsubset

theorem step_leftDecimalDigit (hknown : Known base flags .leftDecimalDigit)
    (h : Facts ucdDecimalDigit base char k) :
    StepAgrees base (residual base flags.possiblyFloat .leftDecimalDigit) char rest
      (step ucdDecimalDigit base flags char .leftDecimalDigit) := by
  obtain ⟨hrational, hfloat⟩ := hknown
  unfold step
  rw [h.class1]
  cases k with
  | _ => simp [StepAgrees, residual, Known, agrees_iff, h.decimalDigit, h.marker, h.dot,
    hrational, hfloat]

theorem step_agrees (label : Label) (hknown : Known base flags label)
    (h : Facts ucdDecimalDigit base char k) :
    StepAgrees base (residual base flags.possiblyFloat label) char rest
      (step ucdDecimalDigit base flags char label) := by
  cases label with
  | sign => exact step_sign hknown h
  | leftDigit => exact step_leftDigit hknown h
  | leftDigitOrExpt => exact step_leftDigitOrExpt hknown h
  | leftDecimalDigit => exact step_leftDecimalDigit hknown h
  | ratio | ratioDigit =>
    unfold step
    rw [h.class2]
    cases k with
    | _ => simp [StepAgrees, residual, Known, agrees_iff, h.digit]
  | _ =>
    unfold step
    rw [h.class1]
    cases k with
    | _ => simp [StepAgrees, residual, Known, agrees_iff, h.decimalDigit, h.marker, h.sign]

@[simp] def Outcome.isNumber : Outcome → Bool
  | .makeInteger _ | .makeRatio | .makeFloat => true
  | _ => false

def Step.isNumber : Step → Bool
  | .go _ _ => false
  | .leave outcome => outcome.isNumber

@[simp] theorem Step.isNumber_go (label : Label) (flags : Flags) :
    (Step.go label flags).isNumber = false := rfl

@[simp] theorem Step.isNumber_leave (outcome : Outcome) :
    (Step.leave outcome).isNumber = outcome.isNumber := rfl

@[simp] theorem Step.isNumber_ite (p : Prop) [Decidable p] (s s' : Step) :
    (if p then s else s').isNumber = if p then s.isNumber else s'.isNumber :=
  apply_ite Step.isNumber p s s'

/-- The numbers that a whole token is. -/
def whole (base : Base) : Residual := ⟨integer base, decimalInteger, ratio base, float IsMarker⟩

theorem enter_agrees (h : Facts ucdDecimalDigit base char k) :
    StepAgrees base (whole base) char rest (enter ucdDecimalDigit base char) := by
  have hinteger : char :: rest ∈ integer base ↔ _ := cons_mem_opt_sign
  have hdecimal : char :: rest ∈ decimalInteger ↔ _ :=
    cons_mem_opt_sign (L := decimal * decimalRest)
  have hratio : char :: rest ∈ ratio base ↔ _ :=
    cons_mem_opt_sign (L := digit base * ratioRest base)
  have hfloat : char :: rest ∈ float IsMarker ↔ IsSign char ∧ rest ∈ unsignedFloat ∨
      char :: rest ∈ unsignedFloat := by
    rw [float_eq]
    exact cons_mem_opt_sign
  unfold enter whole
  rw [h.class3, h.flags]
  cases k with
  | _ =>
    simp [StepAgrees, residual, Known, agrees_iff, hinteger, hdecimal, hratio, hfloat, h.digit,
      h.decimalDigit, h.dot, h.sign]

theorem atEnd_agrees (label : Label) :
    Agrees base (atEnd base label) (residual base flags.possiblyFloat label) [] := by
  cases label with
  | leftDigit =>
    cases hfloat : flags.possiblyFloat with
    | _ => simp [atEnd, residual, agrees_iff, nil_mem_kstar, eq_comm]
  | _ => simp [atEnd, residual, agrees_iff, nil_mem_kstar, eq_comm]

theorem step_isNumber (label : Label) (h : Facts ucdDecimalDigit base char k) {outcome : Outcome}
    (heq : step ucdDecimalDigit base flags char label = .leave outcome) :
    outcome.isNumber = false := by
  suffices hstep : (step ucdDecimalDigit base flags char label).isNumber = false by
    rwa [heq] at hstep
  cases label with
  | sign | leftDigit | leftDigitOrExpt =>
    unfold step
    dsimp only
    rw [h.class3]
    cases k with
    | _ => simp
  | ratio | ratioDigit =>
    unfold step
    rw [h.class2]
    cases k with
    | _ => simp
  | _ =>
    unfold step
    rw [h.class1]
    cases k with
    | _ => simp

theorem step_delimiter (label : Label)
    (h : charSyntax char = .whitespace ∨ charSyntax char = .terminatingMacro) :
    step ucdDecimalDigit base flags char label = .leave (atEnd base label) := by
  have hclass1 : charClass char = .ok .delimiter := by
    unfold charClass
    rcases h with h | h <;> rw [h]
  have hclass2 : charClass2 ucdDecimalDigit char base = .ok .delimiter := by
    unfold charClass2
    rcases h with h | h <;> rw [h]
  have hclass3 : charClass3 ucdDecimalDigit char base = .ok .delimiter := by
    unfold charClass3
    rcases h with h | h <;> rw [h]
  cases label with
  | _ => simp [step, hclass1, hclass2, hclass3, atEnd]

end Steps

/-! ## Tokens -/

section Tokens

variable {ucdDecimalDigit : ℕ → Option ℕ} {base : Base} {token tail : List Char}

theorem run_agrees (htail : Delimited tail) (htoken : ∀ char ∈ token, IsStandardConstituent char)
    (label : Label) (flags : Flags) (buf : List Char) (hknown : Known base flags label) :
    Agrees base (run ucdDecimalDigit base label flags buf (token ++ tail)).outcome
      (residual base flags.possiblyFloat label) token := by
  induction token generalizing label flags buf with
  | nil =>
    cases tail with
    | nil => exact atEnd_agrees label
    | cons char rest =>
      rw [nil_append, run, step_delimiter label (htail char rfl)]
      exact atEnd_agrees label
  | cons char token ih =>
    have hfacts : Facts ucdDecimalDigit base char _ := facts (htoken char mem_cons_self)
    have hstep : StepAgrees base _ char token _ := step_agrees label hknown hfacts
    rw [cons_append, run]
    cases heq : step ucdDecimalDigit base flags char label with
    | go label' flags' =>
      rw [heq] at hstep
      obtain ⟨hknown', hinteger, hdecimal, hratio, hfloat⟩ := hstep
      exact (ih (fun c hc => htoken c (mem_cons_of_mem _ hc)) label' flags' _ hknown').congr
        hinteger hdecimal hratio hfloat
    | leave outcome =>
      rw [heq] at hstep
      exact hstep

theorem readToken_agrees {char : Char} (htail : Delimited tail)
    (htoken : ∀ c ∈ char :: token, IsStandardConstituent c) :
    Agrees base (readToken ucdDecimalDigit base char (token ++ tail)).outcome (whole base)
      (char :: token) := by
  have hfacts : Facts ucdDecimalDigit base char _ := facts (htoken char mem_cons_self)
  have henter : StepAgrees base _ char token _ := enter_agrees hfacts
  unfold readToken
  cases heq : enter ucdDecimalDigit base char with
  | go label flags =>
    rw [heq] at henter
    obtain ⟨hknown, hinteger, hdecimal, hratio, hfloat⟩ := henter
    exact (run_agrees htail (fun c hc => htoken c (mem_cons_of_mem _ hc)) label
      flags _ hknown).congr hinteger hdecimal hratio hfloat
  | leave outcome =>
    rw [heq] at henter
    exact henter

theorem run_taken (htail : Delimited tail) (htoken : ∀ char ∈ token, IsStandardConstituent char)
    (label : Label) (flags : Flags) (buf : List Char)
    (h : (run ucdDecimalDigit base label flags buf (token ++ tail)).outcome.isNumber = true) :
    (run ucdDecimalDigit base label flags buf (token ++ tail)).buf = buf ++ token ∧
      (run ucdDecimalDigit base label flags buf (token ++ tail)).rest = tail := by
  induction token generalizing label flags buf with
  | nil =>
    cases tail with
    | nil => exact ⟨(append_nil buf).symm, rfl⟩
    | cons char rest =>
      rw [nil_append, run, step_delimiter label (htail char rfl)]
      exact ⟨(append_nil buf).symm, rfl⟩
  | cons char token ih =>
    rw [cons_append, run] at h ⊢
    cases heq : step ucdDecimalDigit base flags char label with
    | go label' flags' =>
      rw [heq] at h
      have htaken := ih (fun c hc => htoken c (mem_cons_of_mem _ hc)) label' flags' _ h
      rw [append_assoc] at htaken
      exact htaken
    | leave outcome =>
      rw [heq] at h
      have hfalse := step_isNumber label (facts (htoken char mem_cons_self)) heq
      exact absurd (h.symm.trans hfalse) (by decide)

theorem readToken_taken {char : Char} (htail : Delimited tail)
    (htoken : ∀ c ∈ char :: token, IsStandardConstituent c)
    (h : (readToken ucdDecimalDigit base char (token ++ tail)).outcome.isNumber = true) :
    (readToken ucdDecimalDigit base char (token ++ tail)).buf = char :: token ∧
      (readToken ucdDecimalDigit base char (token ++ tail)).rest = tail := by
  have htoken' : ∀ c ∈ token, IsStandardConstituent c := fun c hc => htoken c (mem_cons_of_mem _ hc)
  unfold readToken at h ⊢
  cases heq : enter ucdDecimalDigit base char with
  | go label flags =>
    rw [heq] at h
    exact run_taken htail htoken' label flags _ h
  | leave outcome =>
    have hk : Facts ucdDecimalDigit base char _ := facts (htoken char mem_cons_self)
    have henter : (enter ucdDecimalDigit base char).isNumber = false := by
      unfold enter
      rw [hk.class3]
      generalize kind (decide (IsDigit base char)) char = k
      cases k with
      | _ => simp
    rw [heq] at h henter
    exact absurd (h.symm.trans henter) (by decide)

/-- A token of standard constituents is read as an integer, in the base or in decimal, as a ratio or
as a float, where it is one in the grammar with the exponent markers of the constituent traits, as
an integer where it is both an integer and a float, and else as a symbol or an error; a number takes
the token, and no impossible branch is reached. -/
theorem readToken_number (ucdDecimalDigit : ℕ → Option ℕ) (base : Base) (char : Char)
    (token tail : List Char)
    (htoken : ∀ c ∈ char :: token, IsStandardConstituent c) (htail : Delimited tail) :
    let result := readToken ucdDecimalDigit base char (token ++ tail)
    (∀ b, result.outcome = .makeInteger b ↔
        char :: token ∈ integer base ∧ b = base.val ∨ char :: token ∈ decimalInteger ∧ b = 10) ∧
      (result.outcome = .makeRatio ↔ char :: token ∈ ratio base) ∧
      (result.outcome = .makeFloat ↔ char :: token ∈ float IsMarker ∧
        char :: token ∉ integer base) ∧
      (result.outcome.isNumber = true → result.buf = char :: token ∧ result.rest = tail) ∧
      (result.outcome.isNumber = false →
        result.outcome = .symbol ∨ result.outcome = .returnSymbol ∨ result.outcome = .colon ∨
          ∃ e, result.outcome = .readerError e) := by
  have h : Agrees base (readToken ucdDecimalDigit base char (token ++ tail)).outcome _ _ :=
    readToken_agrees htail htoken
  refine ⟨h.integer, h.ratio, h.float, readToken_taken htail htoken, ?_⟩
  intro hnumber
  cases houtcome : (readToken ucdDecimalDigit base char (token ++ tail)).outcome with
  | makeInteger | makeRatio | makeFloat =>
    rw [houtcome] at hnumber
    cases hnumber
  | symbol => exact .inl rfl
  | returnSymbol => exact .inr (.inl rfl)
  | colon => exact .inr (.inr (.inl rfl))
  | readerError e => exact .inr (.inr (.inr ⟨e, rfl⟩))
  | singleEscape => exact absurd houtcome h.singleEscape
  | multEscape => exact absurd houtcome h.multEscape
  | bug => exact absurd houtcome h.bug

/-- `1E+5` in the base 16, before a parenthesis: a float, since `1E` alone is not all of it. -/
theorem readToken_number_hex :
    (∀ c ∈ ['1', 'E', '+', '5'], IsStandardConstituent c) ∧ Delimited [')'] ∧
      ((readToken (fun _ => none) ⟨16, by decide, by decide⟩ '1' ['E', '+', '5', ')']).outcome =
        .makeFloat ↔
        ['1', 'E', '+', '5'] ∈ float IsMarker ∧
        ['1', 'E', '+', '5'] ∉ integer ⟨16, by decide, by decide⟩) := by
  have htoken : ∀ c ∈ ['1', 'E', '+', '5'], IsStandardConstituent c := by
    simp only [forall_mem_cons]
    exact ⟨by decide, by decide, by decide, by decide, by simp⟩
  have htail : Delimited [')'] := fun c hc => by cases hc; exact .inr rfl
  exact ⟨htoken, htail,
    (readToken_number (fun _ => none) ⟨16, by decide, by decide⟩ _ _ [')'] htoken htail).2.2.1⟩

theorem notMem_float_R : ['1', 'R', '0'] ∉ float IsStandardMarker := by
  have hsign : ¬IsSign '1' := by decide
  have hdecimal : ¬IsDecimalDigit 'R' := by decide
  have hmarker : ¬IsStandardMarker 'R' := by decide
  have hdot : '1' ≠ '.' ∧ 'R' ≠ '.' := by decide
  unfold float exponent decimal dot sign
  simp only [mem_add, add_mul, one_mul, mul_assoc, cons_mem_mul, cons_mem_many_mul, hsign, hdecimal,
    hmarker, hdot.1, hdot.2, false_and, and_false, or_false, not_false_eq_true]

/-- `1R0` is read as a float, which it is not in the grammar of the standard. -/
theorem readToken_R :
    ¬∀ (base : Base) (char : Char) (token : List Char),
      (∀ c ∈ char :: token, IsStandardConstituent c) →
      ((readToken (fun _ => none) base char token).outcome = .makeFloat ↔
        char :: token ∈ float IsStandardMarker ∧ char :: token ∉ integer base) := by
  intro h
  have htoken : ∀ c ∈ ['1', 'R', '0'], IsStandardConstituent c := by
    simp only [forall_mem_cons]
    exact ⟨by decide, by decide, by decide, by simp⟩
  have hR := h ⟨10, by decide, by decide⟩ '1' ['R', '0'] htoken
  exact notMem_float_R (hR.1 (by decide)).1

end Tokens

end Sbcl.Reader
