import Mathlib.Tactic.FinCases
import Sbcl.ExternalFormats.Utf8

/-!
# UTF-8: correctness

* `IsChar`, `WellFormed` : the well-formed octets, by the table of lead octets and their seconds;
* `outputCode_spec`, `isChar_output` : the octets of a character and back;
* `bytesPerUtf8Character_spec` : a step of the decoder, for well-formed and malformed octets;
* `utf8_codec` : both directions, for every variant of the newline.
-/

namespace Sbcl.Utf8

open List Option Nat
open List (replicate)

def IsScalar (code : ℕ) : Prop := code < charCodeLimit ∧ ¬(0xd800 ≤ code ∧ code ≤ 0xdfff)

def Tail (b : Octet) : Prop := 0x80 ≤ b.val ∧ b.val < 0xc0

theorem validUtf8StarterByteP_eq (b : Octet) :
    validUtf8StarterByteP b =
      if b.val < 0x80 then some 1 else if b.val < 0xc2 then none else if b.val < 0xe0 then some 2
      else if b.val < 0xf0 then some 3 else if b.val < 0xf5 then some 4 else none := by
  revert b
  decide +kernel

theorem continuation_iff (b : Octet) : b.val &&& 0b11000000 = 0b10000000 ↔ Tail b := by
  unfold Tail
  revert b
  decide +kernel

/-- The octets that can come second. -/
def Second (a b : Octet) : Prop :=
  Tail b ∧ (a.val = 0xe0 → 0xa0 ≤ b.val) ∧ (a.val = 0xed → b.val < 0xa0) ∧
    (a.val = 0xf0 → 0x90 ≤ b.val) ∧ (a.val = 0xf4 → b.val < 0x90)

/-- The octets of one character: nothing overlong, no surrogate and nothing above the limit. -/
def IsChar : List Octet → Prop
  | [a] => a.val < 0x80
  | [a, b] => 0xc2 ≤ a.val ∧ a.val < 0xe0 ∧ Tail b
  | [a, b, c] => 0xe0 ≤ a.val ∧ a.val < 0xf0 ∧ Second a b ∧ Tail c
  | [a, b, c, d] => 0xf0 ≤ a.val ∧ a.val < 0xf5 ∧ Second a b ∧ Tail c ∧ Tail d
  | _ => False

def WellFormed (octets : List Octet) : Prop :=
  ∃ chars : List (List Octet), (∀ c ∈ chars, IsChar c) ∧ octets = chars.flatten

def value : List Octet → ℕ
  | [a] => a.val
  | [a, b] => a.val % 32 * 64 + b.val % 64
  | [a, b, c] => a.val % 16 * 4096 + b.val % 64 * 64 + c.val % 64
  | [a, b, c, d] => a.val % 8 * 262144 + b.val % 64 * 4096 + c.val % 64 * 64 + d.val % 64
  | _ => 0

section
variable (a b c d : Octet)

theorem isChar_one : IsChar [a] ↔ a.val < 0x80 := Iff.rfl

theorem isChar_two : IsChar [a, b] ↔ 0xc2 ≤ a.val ∧ a.val < 0xe0 ∧ Tail b := Iff.rfl

theorem isChar_three : IsChar [a, b, c] ↔ 0xe0 ≤ a.val ∧ a.val < 0xf0 ∧ Second a b ∧ Tail c :=
  Iff.rfl

theorem isChar_four : IsChar [a, b, c, d] ↔ 0xf0 ≤ a.val ∧ a.val < 0xf5 ∧ Second a b ∧ Tail c ∧
    Tail d := Iff.rfl

theorem value_one : value [a] = a.val := rfl

theorem value_two : value [a, b] = a.val % 32 * 64 + b.val % 64 := rfl

theorem value_three : value [a, b, c] = a.val % 16 * 4096 + b.val % 64 * 64 + c.val % 64 := rfl

theorem value_four :
    value [a, b, c, d] = a.val % 8 * 262144 + b.val % 64 * 4096 + c.val % 64 * 64 + d.val % 64 :=
  rfl

end

/-! ## Characters to octets -/

theorem ldb_eq (size position x : ℕ) : ldb size position x = x / 2 ^ position % 2 ^ size := by
  unfold ldb
  rw [shiftRight_eq_div_pow]

theorem val_octet {x : ℕ} (h : x < 256) : (octet x).val = x := mod_eq_of_lt h

theorem octet_val (b : Octet) : octet b.val = b := Fin.ext (val_octet b.isLt)

theorem charLenAsUtf8_cases (code : ℕ) :
    (charLenAsUtf8 code = 1 ∧ code < 0x80) ∨ (charLenAsUtf8 code = 2 ∧ 0x80 ≤ code ∧ code < 0x800) ∨
      (charLenAsUtf8 code = 3 ∧ 0x800 ≤ code ∧ code < 0x10000) ∨
      (charLenAsUtf8 code = 4 ∧ 0x10000 ≤ code) := by
  unfold charLenAsUtf8
  grind

theorem val_lead (tag size position code : ℕ) (h : 2 ^ size * tag + 2 ^ size ≤ 256) :
    (octet (2 ^ size * tag ||| ldb size position code)).val =
      2 ^ size * tag + code / 2 ^ position % 2 ^ size := by
  have hlt : code / 2 ^ position % 2 ^ size < 2 ^ size := Nat.mod_lt _ (Nat.two_pow_pos size)
  rw [ldb_eq, ← two_pow_add_eq_or_of_lt hlt, val_octet (by omega)]

theorem val_tail (position code : ℕ) : (octet (0x80 ||| ldb 6 position code)).val =
    0x80 + code / 2 ^ position % 64 :=
  val_lead 2 6 position code (by decide)

theorem outputCode_one {code : ℕ} (h : charLenAsUtf8 code = 1) (newline : Newline) :
    outputCode newline code = some (asciiOctets newline code) := by
  unfold outputCode
  rw [h]
  rfl

theorem outputCode_two {code : ℕ} (h : charLenAsUtf8 code = 2) (newline : Newline) :
    outputCode newline code = some [octet (0xc0 ||| ldb 5 6 code),
      octet (0x80 ||| ldb 6 0 code)] := by
  unfold outputCode
  rw [h]
  rfl

theorem outputCode_three {code : ℕ} (h : charLenAsUtf8 code = 3) (newline : Newline) :
    outputCode newline code =
      if 0xd800 ≤ code ∧ code ≤ 0xdfff then none
      else some [octet (0xe0 ||| ldb 4 12 code), octet (0x80 ||| ldb 6 6 code),
        octet (0x80 ||| ldb 6 0 code)] := by
  unfold outputCode
  rw [h]
  rfl

theorem outputCode_four {code : ℕ} (h : charLenAsUtf8 code = 4) (newline : Newline) :
    outputCode newline code =
      some [octet (0xf0 ||| ldb 3 18 code), octet (0x80 ||| ldb 6 12 code),
        octet (0x80 ||| ldb 6 6 code), octet (0x80 ||| ldb 6 0 code)] := by
  unfold outputCode
  rw [h]
  rfl

/-! ### The fields of a code -/

section Fields
variable {a b c d : Octet} {x y z w code : ℕ}

theorem tail_of (h : b.val = 0x80 + y) (hy : y < 64) : Tail b := by
  unfold Tail
  omega

theorem Tail.eq (h : Tail b) : b.val = 0x80 + b.val % 64 := by
  unfold Tail at h
  omega

theorem lt_64 (x : ℕ) : x % 64 < 64 := Nat.mod_lt _ (by decide)

theorem fields_two (hx : x < 32) (hy : y < 64) (hcode : code = x * 64 + y) : code / 64 % 32 = x ∧
    code % 64 = y := by
  omega

theorem fields_three (hx : x < 16) (hy : y < 64) (hz : z < 64)
    (hcode : code = x * 4096 + y * 64 + z) :
    code / 4096 % 16 = x ∧ code / 64 % 64 = y ∧ code % 64 = z := by
  refine ⟨?_, ?_, ?_⟩ <;> omega

theorem fields_four (hx : x < 8) (hy : y < 64) (hz : z < 64) (hw : w < 64)
    (hcode : code = x * 262144 + y * 4096 + z * 64 + w) :
    code / 262144 % 8 = x ∧ code / 4096 % 64 = y ∧ code / 64 % 64 = z ∧ code % 64 = w := by
  refine ⟨?_, ?_, ?_, ?_⟩ <;> omega

theorem second_three (ha : a.val = 0xe0 + x) (hx : x < 16) (hb : b.val = 0x80 + y) (hy : y < 64) :
    Second a b ↔ (x = 0 → 32 ≤ y) ∧ (x = 13 → y < 32) := by
  unfold Second Tail
  rw [ha, hb]
  omega

theorem second_four (ha : a.val = 0xf0 + x) (hx : x < 8) (hb : b.val = 0x80 + y) (hy : y < 64) :
    Second a b ↔ (x = 0 → 16 ≤ y) ∧ (x = 4 → y < 16) := by
  unfold Second Tail
  rw [ha, hb]
  omega

theorem range_three (hy : y < 64) (hz : z < 64) (hcode : code = x * 4096 + y * 64 + z) :
    (x = 0 → 32 ≤ y) ∧ (x = 13 → y < 32) ↔ 0x800 ≤ code ∧ ¬(0xd800 ≤ code ∧ code ≤ 0xdfff) := by
  omega

theorem range_four (hy : y < 64) (hz : z < 64) (hw : w < 64)
    (hcode : code = x * 262144 + y * 4096 + z * 64 + w) :
    x < 5 ∧ (x = 0 → 16 ≤ y) ∧ (x = 4 → y < 16) ↔ 0x10000 ≤ code ∧ code < 0x110000 := by
  omega

theorem lead_three (h : 0xe0 ≤ a.val) (h' : a.val < 0xf0) : a.val = 0xe0 + a.val % 16 := by omega

theorem lead_four (h : 0xf0 ≤ a.val) (h' : a.val < 0xf5) : a.val = 0xf0 + a.val % 8 ∧
    a.val % 8 < 5 := by omega

theorem isChar_three_range (h : IsChar [a, b, c]) :
    0x800 ≤ value [a, b, c] ∧ ¬(0xd800 ≤ value [a, b, c] ∧ value [a, b, c] ≤ 0xdfff) := by
  obtain ⟨h1, h2, hs, -⟩ := (isChar_three a b c).1 h
  have hx : a.val % 16 < 16 := Nat.mod_lt _ (by decide)
  have hsecond := (second_three (lead_three h1 h2) hx hs.1.eq (lt_64 _)).1 hs
  exact (range_three (lt_64 _) (lt_64 _) (value_three a b c)).1 hsecond

theorem isChar_four_range (h : IsChar [a, b, c, d]) : 0x10000 ≤ value [a, b, c, d] ∧
    value [a, b, c, d] < 0x110000 := by
  obtain ⟨h1, h2, hs, -⟩ := (isChar_four a b c d).1 h
  obtain ⟨ha, hlt⟩ := lead_four h1 h2
  have hsecond := (second_four ha (by omega) hs.1.eq (lt_64 _)).1 hs
  exact (range_four (lt_64 _) (lt_64 _) (lt_64 _) (value_four a b c d)).1 ⟨hlt, hsecond⟩

end Fields

theorem outputCode_spec {code : ℕ} (h : IsScalar code) :
    ∃ octets, outputCode .lf code = some octets ∧ IsChar octets ∧ value octets = code ∧
      octets.length = charLenAsUtf8 code := by
  obtain ⟨hlimit, hsurrogate⟩ := h
  unfold charCodeLimit at hlimit
  have htail : (octet (0x80 ||| ldb 6 0 code)).val = 0x80 + code % 64 := by
    rw [val_tail 0 code, pow_zero, Nat.div_one]
  have hmid : (octet (0x80 ||| ldb 6 6 code)).val = 0x80 + code / 64 % 64 := val_tail 6 code
  rcases charLenAsUtf8_cases code with ⟨hlen, hlt⟩ | ⟨hlen, hge, hlt⟩ | ⟨hlen, hge,
    hlt⟩ | ⟨hlen, hge⟩
  · refine ⟨[octet code], outputCode_one hlen .lf, (isChar_one _).2 ?_,
      (value_one _).trans (val_octet (by omega)), hlen.symm⟩
    rwa [val_octet (by omega)]
  · have hlead : (octet (0xc0 ||| ldb 5 6 code)).val = 0xc0 + code / 64 % 32 :=
      val_lead 6 5 6 code (by decide)
    refine ⟨_, outputCode_two hlen .lf, (isChar_two ..).2 ⟨?_, ?_, tail_of htail (lt_64 _)⟩,
      (value_two ..).trans ?_, hlen.symm⟩
    · omega
    · omega
    · rw [hlead, htail]
      omega
  · have hlead : (octet (0xe0 ||| ldb 4 12 code)).val = 0xe0 + code / 4096 % 16 :=
      val_lead 14 4 12 code (by decide)
    have hx : code / 4096 % 16 < 16 := Nat.mod_lt _ (by decide)
    have hcode : code = code / 4096 % 16 * 4096 + code / 64 % 64 * 64 + code % 64 := by omega
    have hsecond :=
      (second_three hlead hx hmid (lt_64 _)).2
        ((range_three (lt_64 _) (lt_64 _) hcode).2 ⟨hge, hsurrogate⟩)
    refine ⟨_, (outputCode_three hlen .lf).trans (if_neg hsurrogate),
      (isChar_three ..).2 ⟨?_, ?_, hsecond, tail_of htail (lt_64 _)⟩,
      (value_three ..).trans ?_, hlen.symm⟩
    · omega
    · omega
    · rw [hlead, hmid, htail]
      omega
  · have hlead : (octet (0xf0 ||| ldb 3 18 code)).val = 0xf0 + code / 262144 % 8 :=
      val_lead 30 3 18 code (by decide)
    have hhigh : (octet (0x80 ||| ldb 6 12 code)).val = 0x80 + code / 4096 % 64 := val_tail 12 code
    have hx : code / 262144 % 8 < 8 := Nat.mod_lt _ (by decide)
    have hcode : code = code / 262144 % 8 * 262144 + code / 4096 % 64 * 4096 + code / 64 % 64 *
        64 + code % 64 := by
      omega
    obtain ⟨hx5, hrange⟩ := (range_four (lt_64 _) (lt_64 _) (lt_64 _) hcode).2 ⟨hge, hlimit⟩
    have hsecond := (second_four hlead hx hhigh (lt_64 _)).2 hrange
    refine ⟨_, outputCode_four hlen .lf,
      (isChar_four ..).2 ⟨?_, ?_, hsecond, tail_of hmid (lt_64 _), tail_of htail (lt_64 _)⟩,
      (value_four ..).trans ?_, hlen.symm⟩
    · omega
    · omega
    · rw [hlead, hhigh, hmid, htail]
      omega

theorem isChar_value {octets : List Octet} (h : IsChar octets) :
    IsScalar (value octets) ∧ outputCode .lf (value octets) = some octets := by
  unfold IsScalar charCodeLimit
  have htail {b : Octet} {code : ℕ} (position : ℕ) (hb : Tail b)
      (hcode : code / 2 ^ position % 64 = b.val % 64) :
      octet (0x80 ||| ldb 6 position code) = b :=
    Fin.ext (by rw [val_tail, hcode, ← hb.eq])
  match octets, h with
  | [a], h =>
    have ha : a.val < 0x80 := h
    have hlen : charLenAsUtf8 (value [a]) = 1 := if_pos ha
    rw [outputCode_one hlen]
    rw [value_one]
    refine ⟨by omega, ?_⟩
    show some [octet a.val] = some [a]
    rw [octet_val]
  | [a, b], h =>
    obtain ⟨h1, h2, hb⟩ := (isChar_two a b).1 h
    have hx : a.val % 32 < 32 := Nat.mod_lt _ (by decide)
    have ha : a.val = 0xc0 + a.val % 32 := by omega
    have hcode := value_two a b
    obtain ⟨e1, e2⟩ := fields_two hx (lt_64 _) hcode
    have hrange : 0x80 ≤ value [a, b] ∧ value [a, b] < 0x800 := by
      rw [hcode]
      omega
    have hlen : charLenAsUtf8 (value [a, b]) = 2 := by
      have := charLenAsUtf8_cases (value [a, b])
      omega
    have hlead : octet (0xc0 ||| ldb 5 6 (value [a, b])) = a :=
      Fin.ext ((val_lead 6 5 6 _ (by decide)).trans ((congrArg (0xc0 + ·) e1).trans ha.symm))
    refine ⟨by omega, ?_⟩
    rw [outputCode_two hlen, hlead, htail 0 hb ((congrArg (· % 64) (Nat.div_one _)).trans e2)]
  | [a, b, c], h =>
    obtain ⟨hge, hsurrogate⟩ := isChar_three_range h
    obtain ⟨h1, h2, hs, hc⟩ := (isChar_three a b c).1 h
    have hx : a.val % 16 < 16 := Nat.mod_lt _ (by decide)
    have hcode := value_three a b c
    obtain ⟨e1, e2, e3⟩ := fields_three hx (lt_64 _) (lt_64 _) hcode
    have hlt : value [a, b, c] < 0x10000 := by
      rw [hcode]
      omega
    have hlen : charLenAsUtf8 (value [a, b, c]) = 3 := by
      have := charLenAsUtf8_cases (value [a, b, c])
      omega
    have hlead : octet (0xe0 ||| ldb 4 12 (value [a, b, c])) = a :=
      Fin.ext ((val_lead 14 4 12 _ (by decide)).trans
        ((congrArg (0xe0 + ·) e1).trans (lead_three h1 h2).symm))
    refine ⟨⟨by omega, hsurrogate⟩, ?_⟩
    rw [outputCode_three hlen, if_neg hsurrogate, hlead, htail 6 hs.1 e2,
      htail 0 hc ((congrArg (· % 64) (Nat.div_one _)).trans e3)]
  | [a, b, c, d], h =>
    obtain ⟨hge, hlt⟩ := isChar_four_range h
    obtain ⟨h1, h2, hs, hc, hd⟩ := (isChar_four a b c d).1 h
    have hx : a.val % 8 < 8 := Nat.mod_lt _ (by decide)
    obtain ⟨e1, e2, e3, e4⟩ := fields_four hx (lt_64 _) (lt_64 _) (lt_64 _) (value_four a b c d)
    have hlen : charLenAsUtf8 (value [a, b, c, d]) = 4 := by
      have := charLenAsUtf8_cases (value [a, b, c, d])
      omega
    have hlead : octet (0xf0 ||| ldb 3 18 (value [a, b, c, d])) = a :=
      Fin.ext ((val_lead 30 3 18 _ (by decide)).trans
        ((congrArg (0xf0 + ·) e1).trans (lead_four h1 h2).1.symm))
    refine ⟨⟨hlt, fun h => absurd h.2 (by omega)⟩, ?_⟩
    rw [outputCode_four hlen, hlead, htail 12 hs.1 e2, htail 6 hc e3,
      htail 0 hd ((congrArg (· % 64) (Nat.div_one _)).trans e4)]
  | [], h => exact h.elim
  | _ :: _ :: _ :: _ :: _ :: _, h => exact h.elim

theorem validSecondaryP_first (a b : Octet) : validSecondaryP a b 1 = true ↔ Second a b := by
  unfold validSecondaryP Second
  by_cases h : Tail b
  · rw [if_pos ((continuation_iff b).2 h), if_pos rfl]
    have h0 : a = 0xe0 ↔ a.val = 0xe0 := Fin.ext_iff
    have h1 : a = 0xed ↔ a.val = 0xed := Fin.ext_iff
    have h2 : a = 0xf0 ↔ a.val = 0xf0 := Fin.ext_iff
    have h3 : a = 0xf4 ↔ a.val = 0xf4 := Fin.ext_iff
    have k0 : b ≥ 0xa0 ↔ 0xa0 ≤ b.val := Iff.rfl
    have k1 : b < 0xa0 ↔ b.val < 0xa0 := Iff.rfl
    have k2 : b ≥ 0x90 ↔ 0x90 ≤ b.val := Iff.rfl
    have k3 : b < 0x90 ↔ b.val < 0x90 := Iff.rfl
    simp only [h0, h1, h2, h3, k0, k1, k2, k3, h, true_and]
    grind
  · rw [if_neg fun hc => h ((continuation_iff b).1 hc)]
    exact iff_of_false Bool.false_ne_true fun hc => h hc.1

theorem validSecondaryP_next (a b : Octet) {x : ℕ} (hx : x ≠ 1) :
    validSecondaryP a b x = true ↔ Tail b := by
  unfold validSecondaryP
  rw [if_neg hx, ← continuation_iff b]
  split
  · exact iff_of_true rfl ‹_›
  · exact iff_of_false Bool.false_ne_true ‹_›

/-! ## A step of the decoder -/

section Step
variable {array : List Octet} {pos last : ℕ} {a : Octet} {l : List Octet}

/-- The octets that are left, from `pos` on. -/
structure Left (array : List Octet) (pos last : ℕ) (l : List Octet) : Prop where
  ref : ∀ x, ref array last (pos + x) = l[x]?
  length : last - pos = l.length
  le : pos ≤ last

theorem left_intro (array : List Octet) (h : pos ≤ last) (hlast : last ≤ array.length) :
    Left array pos last ((array.take last).drop pos) := by
  refine ⟨fun x => ?_, by simp [hlast], h⟩
  unfold Utf8.ref
  rw [getElem?_drop, getElem?_take]

variable {n : ℕ}

theorem Left.drop (h : Left array pos last l) (hn : n ≤ l.length) :
    Left array (pos + n) last (l.drop n) := by
  obtain ⟨href, hlen, hle⟩ := h
  refine ⟨fun x => ?_, ?_, by omega⟩
  · rw [Nat.add_assoc, href, getElem?_drop]
  · rw [length_drop]
    omega

/-- The octets from the one at `x` on are valid secondary ones, `n` of them. -/
def Secondaries (a : Octet) (l : List Octet) (x n : ℕ) : Prop :=
  ∀ j, x ≤ j → j < x + n → ∃ b, l[j]? = some b ∧ validSecondaryP a b j = true

variable {x : ℕ}

theorem invalidSecondary_spec (h : Left array pos last l) (a : Octet) (hn : x + n ≤ l.length) :
    (invalidSecondary array pos last a n x = some none ∧ Secondaries a l x n) ∨
      ∃ k, x ≤ k ∧ k < x + n ∧ invalidSecondary array pos last a n x = some (some (pos + k)) ∧
        Secondaries a l x (k - x) ∧ ∀ b, l[k]? = some b → validSecondaryP a b k = false := by
  induction n generalizing x with
  | zero => exact .inl ⟨rfl, fun j h1 h2 => absurd h1 (by omega)⟩
  | succ n ih =>
    obtain ⟨b, hb⟩ : ∃ b, l[x]? = some b := ⟨_, getElem?_eq_getElem (by omega)⟩
    unfold invalidSecondary
    rw [h.ref, hb, bind_eq_bind, bind_some]
    cases hvalid : validSecondaryP a b x with
    | false =>
      refine .inr ⟨x, le_rfl, by omega, by rw [if_neg Bool.false_ne_true],
        fun j h1 h2 => absurd h1 (by omega), fun b' hb' => ?_⟩
      rw [hb, some_inj] at hb'
      rwa [← hb']
    | true =>
      rw [if_pos rfl]
      have hfirst : ∀ m, Secondaries a l (x + 1) m → Secondaries a l x (m + 1) :=
        fun m hm j h1 h2 => by
        rcases h1.eq_or_lt with rfl | h1
        · exact ⟨b, hb, hvalid⟩
        · exact hm j h1 (by omega)
      rcases ih (x := x + 1) (by omega) with ⟨heq, hall⟩ | ⟨k, h1, h2, heq, hbefore, hk⟩
      · exact .inl ⟨heq, hfirst n hall⟩
      · refine .inr ⟨k, by omega, by omega, heq, ?_, hk⟩
        have := hfirst _ hbefore
        rwa [show k - (x + 1) + 1 = k - x by omega] at this

theorem preliminaryOkForLength_spec (h : Left array pos last l) (a : Octet) (len : ℕ)
    (hlen : 1 ≤ len) (hl : l ≠ []) (reject : Reject) :
    (preliminaryOkForLength array pos last a (some len) len reject = some (true, reject) ∧
      len ≤ l.length ∧
        Secondaries a l 1 (len - 1)) ∨
      ∃ k reject', 1 ≤ k ∧ k ≤ l.length ∧
        preliminaryOkForLength array pos last a (some len) len reject = some (false, reject') ∧
        Secondaries a l 1 (k - 1) ∧ ¬(len ≤ l.length ∧ Secondaries a l 1 (len - 1)) ∧
        ((reject'.reason = some .invalidUtf8ContinuationByte ∧ reject'.position = pos + k) ∨
          (reject'.reason = some .endOfInputInCharacter ∧ pos + k = last)) := by
  have hpos := length_pos_of_ne_nil hl
  unfold preliminaryOkForLength
  rw [if_pos rfl, h.length]
  rcases invalidSecondary_spec h a (n := min len l.length - 1) (x := 1) (by omega) with
    ⟨heq, hall⟩ | ⟨k, h1, h2, heq, hbefore, hk⟩
  · rw [heq, bind_eq_bind, bind_some]
    have hlength := h.length
    by_cases henough : len ≤ l.length
    · left
      rw [min_eq_left henough] at hall
      exact ⟨if_pos (by omega), henough, hall⟩
    · right
      rw [min_eq_right (by omega)] at hall
      exact ⟨l.length, _, by omega, le_rfl, if_neg (by omega), hall, fun hc => henough hc.1,
        .inr ⟨rfl, by omega⟩⟩
  · right
    rw [heq, bind_eq_bind, bind_some]
    refine ⟨k, _, h1, by omega, rfl, hbefore, fun hc => ?_, .inl ⟨rfl, rfl⟩⟩
    obtain ⟨b, hb, hvalid⟩ := hc.2 k h1 (by omega)
    rw [hk b hb] at hvalid
    cases hvalid

/-- All octets that the lead octet says are there. -/
def Complete (a : Octet) (l : List Octet) (len : ℕ) : Prop :=
  len ≤ l.length ∧ Secondaries a l 1 (len - 1)

variable {len : ℕ}

theorem Complete.second (h : Complete a l len) (hlen : 2 ≤ len) : ∃ b, l[1]? = some b ∧
    Second a b := by
  obtain ⟨b, hb, hvalid⟩ := h.2 1 le_rfl (by omega)
  exact ⟨b, hb, (validSecondaryP_first a b).1 hvalid⟩

theorem Complete.tail (h : Complete a l len) (hx : 2 ≤ x) (hlen : x < len) :
    ∃ b, l[x]? = some b ∧ Tail b := by
  obtain ⟨b, hb, hvalid⟩ := h.2 x (by omega) (by omega)
  exact ⟨b, hb, (validSecondaryP_next a b (by omega)).1 hvalid⟩

theorem belowLimit_eq (h : Left array pos last l) (ha : l[0]? = some a) (hlt : a.val < 0xf5)
    (hcomplete : Complete a l 4) : belowLimit array pos last lexicallyMax 0 = some true := by
  obtain ⟨b, hb, -, -, -, -, hb'⟩ := hcomplete.second (by decide)
  obtain ⟨c, hc, -, hc'⟩ := hcomplete.tail (x := 2) le_rfl (by decide)
  obtain ⟨d, hd, -, hd'⟩ := hcomplete.tail (x := 3) (by decide) (by decide)
  have hmax : lexicallyMax = [0xf4, 0x8f, 0xbf, 0xbf] := by decide
  have hval : ∀ (m : Octet) (ms : List Octet) (x : ℕ) (e : Octet), l[x]? = some e →
      belowLimit array pos last (m :: ms) x =
        if m.val < e.val then some false else if m.val > e.val then some true
        else belowLimit array pos last ms (x + 1) := fun m ms x e he => by
    rw [belowLimit, h.ref, he]
    rfl
  rw [hmax, hval _ _ 0 a ha, hval _ _ 1 b hb, hval _ _ 2 c hc, hval _ _ 3 d hd]
  show (if 0xf4 < a.val then some false else if 0xf4 > a.val then some true else
    if 0x8f < b.val then some false else if 0x8f > b.val then some true else
    if 0xbf < c.val then some false else if 0xbf > c.val then some true else
    if 0xbf < d.val then some false else if 0xbf > d.val then some true else some true) = some true
  by_cases hf4 : a.val = 0xf4
  · have := hb' hf4
    rw [if_neg (by omega), if_neg (by omega), if_neg (by omega)]
    by_cases h8f : 0x8f > b.val
    · exact if_pos h8f
    rw [if_neg h8f, if_neg (by omega)]
    by_cases hbf : 0xbf > c.val
    · exact if_pos hbf
    · rw [if_neg hbf, if_neg (by omega)]
      split <;> rfl
  · rw [if_neg (by omega), if_pos (by omega)]

variable {crlfp : Bool}

theorem bytesPerUtf8Character_crlf (h : Left array pos last l) (ha : l[0]? = some 13) :
    bytesPerUtf8Character array pos last true = some (if l[1]? = some 10 then 2 else 1, none) := by
  unfold bytesPerUtf8Character
  have h0 : ref array last pos = some 13 := (h.ref 0).trans ha
  rw [h0, bind_eq_bind, bind_some]
  rw [if_pos ⟨rfl, rfl⟩, h.length]
  by_cases hmore : l.length > 1
  · obtain ⟨b, hb⟩ : ∃ b, l[1]? = some b := ⟨_, getElem?_eq_getElem hmore⟩
    rw [if_pos hmore, h.ref, hb]
    simp
  · rw [if_neg hmore, getElem?_eq_none (by omega)]
    rfl

theorem bytesPerUtf8Character_one (h : Left array pos last l) (ha : l[0]? = some a)
    (hcr : ¬(crlfp = true ∧ a = 13)) :
    (validUtf8StarterByteP a = some 1 → bytesPerUtf8Character array pos last crlfp =
      some (1, none)) ∧
      (validUtf8StarterByteP a = none → bytesPerUtf8Character array pos last crlfp =
        some (1, some (pos + 1))) := by
  have h0 : ref array last pos = some a := (h.ref 0).trans ha
  unfold bytesPerUtf8Character
  rw [h0, bind_eq_bind, bind_some]
  rw [if_neg hcr]
  refine ⟨fun hs => if_pos hs, fun hs => ?_⟩
  rw [hs]
  simp [preliminaryOkForLength]

theorem bytesPerUtf8Character_long (h : Left array pos last l) (ha : l[0]? = some a)
    (hcr : ¬(crlfp = true ∧ a = 13)) (hlen : 2 ≤ len) (hs : validUtf8StarterByteP a = some len) :
    (Complete a l len ∧ bytesPerUtf8Character array pos last crlfp = some (len, none)) ∨
      (¬ Complete a l len ∧ ∃ k, 1 ≤ k ∧ k ≤ l.length ∧ Secondaries a l 1 (k - 1) ∧
        bytesPerUtf8Character array pos last crlfp = some (k, some (pos + k))) := by
  have h0 : ref array last pos = some a := (h.ref 0).trans ha
  have hl : l ≠ [] := by
    rintro rfl
    cases ha
  have hne : ∀ (n : ℕ) (reject : Reject), len ≠ n →
      preliminaryOkForLength array pos last a (some len) n reject = some (false, reject) :=
    fun n reject hn => if_neg fun hc => hn (some_inj.1 hc)
  have hspec := preliminaryOkForLength_spec h a len (by omega) hl
  have hlt : len ≤ 4 ∧ (len = 4 → a.val < 0xf5) := by
    rw [validUtf8StarterByteP_eq] at hs
    grind
  have hcases : len = 2 ∨ len = 3 ∨ len = 4 := by omega
  unfold bytesPerUtf8Character
  rw [h0, bind_eq_bind, bind_some]
  rw [if_neg hcr, hs, if_neg fun hc => by rw [some_inj] at hc; omega]
  generalize (⟨if (some len).isNone = true then some .invalidUtf8StarterByte else none,
    pos⟩ : Reject) = reject
  rcases hspec reject with ⟨heq, hcomplete⟩ | ⟨k, reject', h1, h2, heq, hbefore,
    hincomplete, hreason⟩
  · refine .inl ⟨hcomplete, ?_⟩
    rcases hcases with rfl | rfl | rfl
    · simp [heq]
    · simp [hne 2 _ (by decide), heq]
    · simp [hne 2 _ (by decide), hne 3 _ (by decide), heq, belowLimit_eq h ha (hlt.2 rfl) hcomplete]
  · refine .inr ⟨hincomplete, k, h1, h2, hbefore, ?_⟩
    rcases hreason with ⟨hr, hp⟩ | ⟨hr, hp⟩
    · rcases hcases with rfl | rfl | rfl
      · simp [hne 3 _ (by decide), hne 4 _ (by decide), heq, hr, hp]
      · simp [hne 2 _ (by decide), hne 4 _ (by decide), heq, hr, hp]
      · simp [hne 2 _ (by decide), hne 3 _ (by decide), heq, hr, hp]
    subst hp
    rcases hcases with rfl | rfl | rfl
    · simp [hne 3 _ (by decide), hne 4 _ (by decide), heq, hr]
    · simp [hne 2 _ (by decide), hne 4 _ (by decide), heq, hr]
    · simp [hne 2 _ (by decide), hne 3 _ (by decide), heq, hr]

/-! ## Characters and malformed octets -/

/-- The octets start with those of a character. -/
def StartsChar (l : List Octet) : Prop := ∃ o rest, IsChar o ∧ l = o ++ rest

variable {o : List Octet}

theorem isChar_lead (ho : IsChar o) (rest : List Octet) :
    ∃ a, (o ++ rest)[0]? = some a ∧ validUtf8StarterByteP a = some o.length ∧
      Complete a (o ++ rest) o.length := by
  match o, ho with
  | [a], h =>
    have ha : a.val < 0x80 := h
    refine ⟨a, rfl, ?_, by simp, fun j h1 h2 => by simp at h2; omega⟩
    rw [validUtf8StarterByteP_eq, if_pos ha]
    rfl
  | [a, b], h =>
    obtain ⟨h1, h2, h3⟩ := (isChar_two a b).1 h
    refine ⟨a, rfl, ?_, by simp, fun j hj hlt => ?_⟩
    · rw [validUtf8StarterByteP_eq, if_neg (by omega), if_neg (by omega), if_pos h2]
      rfl
    · obtain rfl : j = 1 := by simp at hlt; omega
      refine ⟨b, rfl, (validSecondaryP_first a b).2 ⟨h3, ?_⟩⟩
      omega
  | [a, b, c], h =>
    obtain ⟨h1, h2, h3, h4⟩ := (isChar_three a b c).1 h
    refine ⟨a, rfl, ?_, by simp, fun j hj hlt => ?_⟩
    · rw [validUtf8StarterByteP_eq, if_neg (by omega), if_neg (by omega),
        if_neg (by omega), if_pos h2]
      rfl
    · obtain rfl | rfl : j = 1 ∨ j = 2 := by simp at hlt; omega
      · exact ⟨b, rfl, (validSecondaryP_first a b).2 h3⟩
      · exact ⟨c, rfl, (validSecondaryP_next a c (by decide)).2 h4⟩
  | [a, b, c, d], h =>
    obtain ⟨h1, h2, h3, h4, h5⟩ := (isChar_four a b c d).1 h
    refine ⟨a, rfl, ?_, by simp, fun j hj hlt => ?_⟩
    · rw [validUtf8StarterByteP_eq, if_neg (by omega), if_neg (by omega), if_neg (by omega),
        if_neg (by omega), if_pos h2]
      rfl
    obtain rfl | rfl | rfl : j = 1 ∨ j = 2 ∨ j = 3 := by simp at hlt; omega
    · exact ⟨b, rfl, (validSecondaryP_first a b).2 h3⟩
    · exact ⟨c, rfl, (validSecondaryP_next a c (by decide)).2 h4⟩
    · exact ⟨d, rfl, (validSecondaryP_next a d (by decide)).2 h5⟩
  | [], h => exact h.elim
  | _ :: _ :: _ :: _ :: _ :: _, h => exact h.elim

theorem startsChar_of_complete (ha : l[0]? = some a) (hs : validUtf8StarterByteP a = some len)
    (hcomplete : Complete a l len) : StartsChar l := by
  rw [validUtf8StarterByteP_eq] at hs
  obtain ⟨rest, rfl⟩ : ∃ rest, l = a :: rest := by
    cases l with
    | nil => cases ha
    | cons x rest =>
      rw [getElem?_cons_zero, some_inj] at ha
      exact ⟨rest, by rw [ha]⟩
  split at hs
  · exact ⟨[a], rest, ‹_›, rfl⟩
  split at hs
  · cases hs
  split at hs
  · obtain rfl : 2 = len := some_inj.1 hs
    obtain ⟨b, hb, hb'⟩ := hcomplete.second le_rfl
    match rest, hb with
    | x :: rest, hb =>
      obtain rfl : x = b := some_inj.1 hb
      exact ⟨[a, x], rest, (isChar_two ..).2 ⟨by omega, by omega, hb'.1⟩, rfl⟩
  · split at hs
    · obtain rfl : 3 = len := some_inj.1 hs
      obtain ⟨b, hb, hb'⟩ := hcomplete.second (by decide)
      obtain ⟨c, hc, hc'⟩ := hcomplete.tail (x := 2) le_rfl (by decide)
      match rest, hb, hc with
      | x :: y :: rest, hb, hc =>
        obtain rfl : x = b := some_inj.1 hb
        obtain rfl : y = c := some_inj.1 hc
        exact ⟨[a, x, y], rest, (isChar_three ..).2 ⟨by omega, by omega, hb', hc'⟩, rfl⟩
    · split at hs
      · obtain rfl : 4 = len := some_inj.1 hs
        obtain ⟨b, hb, hb'⟩ := hcomplete.second (by decide)
        obtain ⟨c, hc, hc'⟩ := hcomplete.tail (x := 2) le_rfl (by decide)
        obtain ⟨d, hd, hd'⟩ := hcomplete.tail (x := 3) (by decide) (by decide)
        match rest, hb, hc, hd with
        | x :: y :: z :: rest, hb, hc, hd =>
          obtain rfl : x = b := some_inj.1 hb
          obtain rfl : y = c := some_inj.1 hc
          obtain rfl : z = d := some_inj.1 hd
          exact ⟨[a, x, y, z], rest, (isChar_four ..).2 ⟨by omega, by omega, hb', hc', hd'⟩, rfl⟩
      · cases hs

theorem not_startsChar_of_tail {b : Octet} (hb : l[0]? = some b) (htail : Tail b) :
    ¬ StartsChar l := by
  rintro ⟨o, rest, ho, rfl⟩
  obtain ⟨a, ha, hs, -⟩ := isChar_lead ho rest
  rw [ha, some_inj] at hb
  rw [hb, validUtf8StarterByteP_eq] at hs
  obtain ⟨h1, h2⟩ := htail
  grind

theorem bytesPerUtf8Character_char {rest : List Octet}
    (h : Left array pos last (o ++ rest)) (ho : IsChar o)
    (hcr : ¬(crlfp = true ∧ o = [13])) : bytesPerUtf8Character array pos last crlfp =
      some (o.length, none) := by
  obtain ⟨a, ha, hs, hcomplete⟩ := isChar_lead ho rest
  have hcr' : ¬(crlfp = true ∧ a = 13) := by
    rintro ⟨hc, rfl⟩
    refine hcr ⟨hc, ?_⟩
    rw [validUtf8StarterByteP_eq, if_pos (by decide)] at hs
    match o, hs with
    | [x], _ =>
      obtain rfl : x = 13 := some_inj.1 ha
      rfl
  by_cases hlen : o.length = 1
  · rw [hlen] at hs ⊢
    exact (bytesPerUtf8Character_one h ha hcr').1 hs
  have hpos : o.length ≠ 0 := fun h0 => by
    rw [length_eq_zero_iff.1 h0] at ho
    exact ho.elim
  rcases bytesPerUtf8Character_long h ha hcr' (by omega) hs with ⟨-, heq⟩ | ⟨hc, -⟩
  · exact heq
  · exact absurd hcomplete hc

theorem bytesPerUtf8Character_malformed (crlfp : Bool) (h : Left array pos last l) (hl : l ≠ [])
    (hno : ¬ StartsChar l) :
    ∃ k, 1 ≤ k ∧ k ≤ l.length ∧ bytesPerUtf8Character array pos last crlfp =
      some (k, some (pos + k)) ∧ ∀ j, 0 < j → j < k → ¬ StartsChar (l.drop j) := by
  obtain ⟨a, ha⟩ : ∃ a, l[0]? = some a := ⟨_, getElem?_eq_getElem (length_pos_of_ne_nil hl)⟩
  have hlead : ∀ len, validUtf8StarterByteP a = some len → ¬ Complete a l len :=
    fun len hs hcomplete =>
    hno (startsChar_of_complete ha hs hcomplete)
  have hone : validUtf8StarterByteP a ≠ some 1 := fun hs =>
    hlead 1 hs ⟨length_pos_of_ne_nil hl, fun j h1 h2 => absurd h1 (by omega)⟩
  have hcr : ¬(crlfp = true ∧ a = 13) := by
    rintro ⟨-, rfl⟩
    exact hone (by decide)
  cases hs : validUtf8StarterByteP a with
  | none =>
    refine ⟨1, le_rfl, length_pos_of_ne_nil hl, (bytesPerUtf8Character_one h ha hcr).2 hs,
      fun j h1 h2 => ?_⟩
    omega
  | some len =>
    have hlen : 2 ≤ len := by
      rw [validUtf8StarterByteP_eq] at hs hone
      grind
    rcases bytesPerUtf8Character_long h ha hcr hlen hs with ⟨hc, -⟩ | ⟨-, k, h1, h2, hsecond, heq⟩
    · exact absurd hc (hlead len hs)
    refine ⟨k, h1, h2, heq, fun j hj1 hj2 => ?_⟩
    obtain ⟨b, hb, hvalid⟩ := hsecond j hj1 (by omega)
    refine not_startsChar_of_tail (b := b) (by rw [getElem?_drop, Nat.add_zero, hb]) ?_
    by_cases hj : j = 1
    · rw [hj] at hvalid
      exact ((validSecondaryP_first a b).1 hvalid).1
    · exact (validSecondaryP_next a b hj).1 hvalid

theorem shiftLeft_or {y i : ℕ} (hy : y < 2 ^ i) : x <<< i ||| y = x * 2 ^ i + y := by
  rw [← shiftLeft_add_eq_or_of_lt hy, shiftLeft_eq]

theorem ldb_zero (size x : ℕ) : ldb size 0 x = x % 2 ^ size := by
  rw [ldb_eq, pow_zero, Nat.div_one]

theorem shifted_three (x : ℕ) {y z : ℕ} (hy : y < 64) (hz : z < 64) :
    x <<< 12 ||| y <<< 6 ||| z = x * 4096 + y * 64 + z := by
  rw [show x <<< 12 ||| y <<< 6 = (x <<< 6 ||| y) <<< 6 by rw [shiftLeft_or_distrib,
    ← shiftLeft_add], shiftLeft_or hz, shiftLeft_or hy]
  omega

theorem shifted_four (x : ℕ) {y z w : ℕ} (hy : y < 64) (hz : z < 64) (hw : w < 64) :
    x <<< 18 ||| y <<< 12 ||| z <<< 6 ||| w = x * 262144 + y * 4096 + z * 64 + w := by
  rw [show x <<< 18 ||| y <<< 12 ||| z <<< 6 = (x <<< 12 ||| y <<< 6 ||| z) <<< 6 by
    rw [shiftLeft_or_distrib, shiftLeft_or_distrib, ← shiftLeft_add, ← shiftLeft_add],
    shiftLeft_or hw, shifted_three x hy hz]
  omega

theorem simpleGetUtf8Char_char {rest : List Octet} (h : Left array pos last (o ++ rest))
    (ho : IsChar o) (newline : Newline) : simpleGetUtf8Char array pos last newline o.length =
      some (if newline = .cr ∧ value o = 13 then 10 else value o) := by
  obtain ⟨⟨hlimit, -⟩, -⟩ := isChar_value ho
  have hcode : codeChar (value o) = some (value o) := if_pos hlimit
  have hget : ∀ (x : ℕ) (b : Octet), (o ++ rest)[x]? = some b →
      (ref array last (pos + x)).map Fin.val = some b.val :=
    fun x b hb => by
      rw [h.ref, hb]
      rfl
  unfold simpleGetUtf8Char
  match o, ho with
  | [a], _ =>
    rw [value_one] at hcode ⊢
    dsimp only [length_cons, length_nil]
    rw [hget 0 a rfl, bind_eq_bind, bind_some]
    by_cases hcr : newline = .cr ∧ a.val = 13
    · rw [if_pos hcr]
      rfl
    · rw [if_neg hcr]
      exact hcode
  | [a, b], ho =>
    obtain ⟨h1, h2, -⟩ := (isChar_two a b).1 ho
    simp only [length_cons, length_nil, Nat.reduceAdd, hget 0 a rfl, hget 1 b rfl, bind_eq_bind,
      bind_some]
    rw [if_neg (by omega), ldb_eq, ldb_eq, shiftLeft_or (Nat.mod_lt _ (by decide))]
    rw [value_two] at hcode ⊢
    rw [if_neg (by omega)]
    refine Eq.trans (congrArg codeChar ?_) hcode
    omega
  | [a, b, c], ho =>
    have hrange := isChar_three_range ho
    have hbits := shifted_three (a.val % 16) (lt_64 b.val) (lt_64 c.val)
    rw [← value_three] at hbits
    simp only [length_cons, length_nil, Nat.reduceAdd, hget 0 a rfl, hget 1 b rfl, hget 2 c rfl,
      bind_eq_bind, bind_some, ldb_zero, Nat.reducePow, hbits]
    rw [if_neg (by omega)]
    exact hcode
  | [a, b, c, d], ho =>
    have hrange := isChar_four_range ho
    have hbits := shifted_four (a.val % 8) (lt_64 b.val) (lt_64 c.val) (lt_64 d.val)
    rw [← value_four] at hbits
    simp only [length_cons, length_nil, Nat.reduceAdd, hget 0 a rfl, hget 1 b rfl,
      hget 2 c rfl, hget 3 d rfl, bind_eq_bind, bind_some, ldb_zero, Nat.reducePow, hbits]
    rw [if_neg (by omega)]
    exact hcode

/-! ## Runs of the decoder -/

variable {newline : Newline} {decodingError : ℕ → ℕ → List ℕ}

theorem utf8ToString_nil (h : Left array pos last []) :
    utf8ToString newline decodingError array pos last = some ⟨[], []⟩ := by
  unfold utf8ToString
  have hlen := h.length
  rw [length_nil] at hlen
  exact if_neg (by omega)

variable {code : ℕ}

theorem utf8ToString_char {rest : Decoded} (hlt : pos < last) (hn : 0 < n)
    (hbytes : bytesPerUtf8Character array pos last (newline = .crlf) = some (n, none))
    (hget : simpleGetUtf8Char array pos last newline n = some code)
    (hrest : utf8ToString newline decodingError array (pos + n) last = some rest) :
    utf8ToString newline decodingError array pos last = some ⟨code :: rest.string,
      rest.errors⟩ := by
  rw [utf8ToString, if_pos hlt, hbytes]
  dsimp only
  rw [if_pos hn, hget, hrest]
  rfl

theorem utf8ToString_malformed {badEnd : ℕ} {rest : Decoded} (hlt : pos < last) (hn : 0 < n)
    (hbytes : bytesPerUtf8Character array pos last (newline = .crlf) = some (n, some badEnd))
    (hrest : utf8ToString newline decodingError array (pos + n) last = some rest) :
    utf8ToString newline decodingError array pos last =
      some ⟨decodingError pos badEnd ++ rest.string, (pos, badEnd) :: rest.errors⟩ := by
  rw [utf8ToString, if_pos hlt, hbytes]
  dsimp only
  rw [if_pos hn, hrest]
  rfl

theorem Left.pos_lt (h : Left array pos last l) (hl : l ≠ []) : pos < last := by
  have := length_pos_of_ne_nil hl
  have := h.length
  omega

theorem length_pos_of_isChar (ho : IsChar o) : 0 < o.length := by
  refine length_pos_of_ne_nil ?_
  rintro rfl
  exact ho

theorem simpleGetUtf8Char_crlf (h : Left array pos last l) (ha : l[0]? = some 13) :
    simpleGetUtf8Char array pos last .crlf 2 = some 10 := by
  unfold simpleGetUtf8Char
  dsimp only
  rw [h.ref, ha]
  rfl

theorem utf8ToString_total (newline : Newline) (decodingError : ℕ → ℕ → List ℕ)
    (h : Left array pos last l) :
    ∃ d, utf8ToString newline decodingError array pos last = some d := by
  induction hn : l.length using Nat.strong_induction_on generalizing pos l with
  | _ n ih =>
    by_cases hl : l = []
    · subst hl
      exact ⟨_, utf8ToString_nil h⟩
    have hlt := h.pos_lt hl
    have hnext : ∀ m, 0 < m → m ≤ l.length → ∃ d,
        utf8ToString newline decodingError array (pos + m) last = some d :=
      fun m hm hle => ih (l.drop m).length (by rw [length_drop]; omega) (h.drop hle) rfl
    by_cases hstart : StartsChar l
    · obtain ⟨o, rest, ho, rfl⟩ := hstart
      by_cases hcr : newline = .crlf ∧ o = [13]
      · obtain ⟨rfl, rfl⟩ := hcr
        have hbytes := bytesPerUtf8Character_crlf h rfl
        by_cases h10 : ([13] ++ rest)[1]? = some 10
        · rw [if_pos h10] at hbytes
          have hlen : 2 ≤ ([13] ++ rest).length := (List.getElem?_eq_some_iff.1 h10).1
          obtain ⟨d, hd⟩ := hnext 2 (by decide) hlen
          exact ⟨_, utf8ToString_char hlt (by decide) hbytes (simpleGetUtf8Char_crlf h rfl) hd⟩
        · rw [if_neg h10] at hbytes
          obtain ⟨d, hd⟩ := hnext 1 (by decide) (by simp)
          exact ⟨_, utf8ToString_char hlt (by decide) hbytes (simpleGetUtf8Char_char h ho .crlf) hd⟩
      · obtain ⟨d, hd⟩ := hnext o.length (length_pos_of_isChar ho) (by simp)
        exact ⟨_, utf8ToString_char hlt (length_pos_of_isChar ho)
          (bytesPerUtf8Character_char h ho (by simpa using hcr))
          (simpleGetUtf8Char_char h ho newline) hd⟩
    · obtain ⟨k, h1, h2, hbytes, -⟩ := bytesPerUtf8Character_malformed (newline = .crlf) h hl hstart
      obtain ⟨d, hd⟩ := hnext k h1 h2
      exact ⟨_, utf8ToString_malformed hlt h1 hbytes hd⟩

theorem utf8ToString_wellFormed {chars : List (List Octet)} (hchars : ∀ c ∈ chars, IsChar c)
    (h : Left array pos last chars.flatten) :
    utf8ToString .lf decodingError array pos last = some ⟨chars.map value, []⟩ := by
  induction chars generalizing pos with
  | nil => exact utf8ToString_nil h
  | cons o chars ih =>
    have ho := hchars o mem_cons_self
    rw [flatten_cons] at h
    have hdrop := h.drop (n := o.length) (by simp)
    rw [drop_left] at hdrop
    have hrest := ih (fun c hc => hchars c (mem_cons_of_mem _ hc)) hdrop
    have hlt := h.pos_lt (fun h0 => by
      have := length_pos_of_isChar ho
      rw [(append_eq_nil_iff.1 h0).1] at this
      exact absurd this (lt_irrefl 0))
    have hget := simpleGetUtf8Char_char h ho .lf
    rw [if_neg fun hc => by cases hc.1] at hget
    exact utf8ToString_char hlt (length_pos_of_isChar ho)
      (bytesPerUtf8Character_char h ho fun hc => by simp at hc) hget hrest

theorem wellFormed_of_utf8ToString {d : Decoded} (h : Left array pos last l)
    (hrun : utf8ToString .lf decodingError array pos last = some d) (herrors : d.errors = []) :
    ∃ chars : List (List Octet), (∀ c ∈ chars, IsChar c) ∧ l = chars.flatten := by
  induction hn : l.length using Nat.strong_induction_on generalizing pos l d with
  | _ n ih =>
    by_cases hl : l = []
    · exact ⟨[], by simp, hl⟩
    have hlt := h.pos_lt hl
    by_cases hstart : StartsChar l
    · obtain ⟨o, rest, ho, rfl⟩ := hstart
      have hpos := length_pos_of_isChar ho
      have hdrop := h.drop (n := o.length) (by simp)
      rw [drop_left] at hdrop
      obtain ⟨d', hd'⟩ := utf8ToString_total .lf decodingError hdrop
      have hget := simpleGetUtf8Char_char h ho .lf
      rw [utf8ToString_char hlt hpos (bytesPerUtf8Character_char h ho
        fun hc => by simp at hc) hget hd', some_inj] at hrun
      rw [← hrun] at herrors
      obtain ⟨chars, hchars, hflat⟩ := ih rest.length (by
        rw [length_append] at hn
        omega) hdrop hd' herrors rfl
      refine ⟨o :: chars, fun c hc => ?_, by rw [flatten_cons, hflat]⟩
      rcases mem_cons.1 hc with rfl | hc
      · exact ho
      · exact hchars c hc
    · obtain ⟨k, h1, h2, hbytes, -⟩ :=
        bytesPerUtf8Character_malformed (Newline.lf = .crlf) h hl hstart
      obtain ⟨d', hd'⟩ := utf8ToString_total .lf decodingError (h.drop h2)
      rw [utf8ToString_malformed hlt h1 hbytes hd', some_inj] at hrun
      rw [← hrun] at herrors
      cases herrors

/-! ## Strings to octets -/

/-- The octets of a character in a variant. -/
def octetsOf (newline : Newline) (code : ℕ) : List Octet := (outputCode newline code).getD []

theorem outputCode_octetsOf (newline : Newline) (h : IsScalar code) :
    outputCode newline code = some (octetsOf newline code) := by
  unfold octetsOf
  rcases charLenAsUtf8_cases code with ⟨hlen, -⟩ | ⟨hlen, -⟩ | ⟨hlen, -⟩ | ⟨hlen, -⟩
  · rw [outputCode_one hlen]
    rfl
  · rw [outputCode_two hlen]
    rfl
  · rw [outputCode_three hlen, if_neg h.2]
    rfl
  · rw [outputCode_four hlen]
    rfl

theorem asciiOctets_octetsOf (newline : Newline) (h : charLenAsUtf8 code = 1) :
    asciiOctets newline code = octetsOf newline code := by
  unfold octetsOf
  rw [outputCode_one h]
  rfl

/-- Only a newline has other octets in the variants. -/
theorem octetsOf_eq (newline : Newline) (h : code ≠ 10) :
    octetsOf newline code = octetsOf .lf code := by
  unfold octetsOf
  rcases charLenAsUtf8_cases code with ⟨hlen, -⟩ | ⟨hlen, -⟩ | ⟨hlen, -⟩ | ⟨hlen, -⟩
  · rw [outputCode_one hlen, outputCode_one hlen]
    unfold asciiOctets
    rw [if_neg h, if_neg h]
    cases newline <;> rfl
  · rw [outputCode_two hlen, outputCode_two hlen]
  · rw [outputCode_three hlen, outputCode_three hlen]
  · rw [outputCode_four hlen, outputCode_four hlen]

theorem isChar_octetsOf (h : IsScalar code) : IsChar (octetsOf .lf code) ∧
    value (octetsOf .lf code) = code := by
  obtain ⟨octets, heq, hchar, hvalue, -⟩ := outputCode_spec h
  unfold octetsOf
  rw [heq]
  exact ⟨hchar, hvalue⟩

theorem length_octetsOf (newline : Newline) (h : IsScalar code) :
    (octetsOf newline code).length = charLenAsUtf8 code +
      if newline = .crlf ∧ code = 10 then 1 else 0 := by
  by_cases h10 : code = 10
  · subst h10
    cases newline <;> rfl
  rw [if_neg fun hc => h10 hc.2, octetsOf_eq newline h10]
  obtain ⟨octets, heq, -, -, hlen⟩ := outputCode_spec h
  unfold octetsOf
  rw [heq]
  exact hlen

variable {string : List ℕ}

theorem length_flatMap_octetsOf (newline : Newline) (h : ∀ c ∈ string, IsScalar c) :
    (string.flatMap (octetsOf newline)).length =
      (string.map charLenAsUtf8).sum + if newline = .crlf then newlineCount string else 0 := by
  induction string with
  | nil => cases newline <;> rfl
  | cons c string ih =>
    rw [flatMap_cons, length_append, length_octetsOf newline (h c mem_cons_self),
      ih fun d hd => h d (mem_cons_of_mem _ hd), map_cons, sum_cons]
    unfold newlineCount
    rw [countP_cons]
    by_cases hn : newline = .crlf
    · simp only [hn, true_and, decide_eq_true_eq, if_true]
      omega
    · simp only [hn, false_and, if_false]
      omega

theorem ascii_of_sum (h : (string.map charLenAsUtf8).sum = string.length) :
    ∀ c ∈ string, charLenAsUtf8 c = 1 := by
  have hge : ∀ c, 1 ≤ charLenAsUtf8 c := fun c => by
    have := charLenAsUtf8_cases c
    omega
  have hsum : ∀ l : List ℕ, l.length ≤ (l.map charLenAsUtf8).sum := fun l => by
    induction l with
    | nil => exact le_rfl
    | cons c l ih =>
      have := hge c
      rw [map_cons, sum_cons, length_cons]
      omega
  induction string with
  | nil => exact fun c hc => absurd hc not_mem_nil
  | cons c string ih =>
    rw [map_cons, sum_cons, length_cons] at h
    have h1 := hge c
    have h2 := hsum string
    intro d hd
    rcases mem_cons.1 hd with rfl | hd
    · omega
    · exact ih (by omega) d hd

theorem flatMap_asciiOctets (newline : Newline) (h : ∀ c ∈ string, charLenAsUtf8 c = 1) :
    string.flatMap (asciiOctets newline) = string.flatMap (octetsOf newline) :=
  flatMap_congr fun c hc => asciiOctets_octetsOf newline (h c hc)

theorem outputCodes_eq (newline : Newline) (h : ∀ c ∈ string, IsScalar c) :
    outputCodes newline string = (string.flatMap (octetsOf newline), none) := by
  induction string with
  | nil => rfl
  | cons c string ih =>
    rw [outputCodes, outputCode_octetsOf newline (h c mem_cons_self),
      ih fun d hd => h d (mem_cons_of_mem _ hd)]
    rfl

theorem fillArray_eq {size : ℕ} {octets : List Octet} (h : size = n + octets.length) :
    fillArray size octets = some (octets ++ replicate n 0) := by
  unfold fillArray
  rw [if_pos (by omega), h, Nat.add_sub_cancel]

theorem stringToUtf8_eq (newline : Newline) (encodingError : ℕ → List Octet) {base : Bool}
    (nullPadding : ℕ) (h : ∀ c ∈ string, IsScalar c) (hbase : base = true → ∀ c ∈ string, c < 128) :
    stringToUtf8 newline encodingError base string nullPadding =
      some (string.flatMap (octetsOf newline) ++ replicate nullPadding 0) := by
  have hlen := length_flatMap_octetsOf newline h
  unfold stringToUtf8
  by_cases hb : base = true
  · have hascii : ∀ c ∈ string, charLenAsUtf8 c = 1 := fun c hc => if_pos (hbase hb c hc)
    have hsum : (string.map charLenAsUtf8).sum = string.length := by
      rw [map_congr_left hascii]
      simp
    rw [if_pos hb, flatMap_asciiOctets newline hascii]
    exact fillArray_eq (by omega)
  · rw [if_neg hb]
    by_cases hsum : (string.map charLenAsUtf8).sum = string.length
    · rw [if_pos hsum, flatMap_asciiOctets newline (ascii_of_sum hsum)]
      exact fillArray_eq (by omega)
    · rw [if_neg hsum, outputCodes_eq newline h]
      exact fillArray_eq (by omega)

theorem utf8ToString_octetsOf (newline : Newline) (hscalar : ∀ c ∈ string, IsScalar c)
    (hcr : newline = .lf ∨ 13 ∉ string)
    (h : Left array pos last (string.flatMap (octetsOf newline))) :
    utf8ToString newline decodingError array pos last = some ⟨string, []⟩ := by
  induction string generalizing pos with
  | nil => exact utf8ToString_nil h
  | cons c string ih =>
    have hc : newline = .lf ∨ c ≠ 13 := hcr.imp_right fun hmem heq => hmem (heq ▸ mem_cons_self)
    rw [flatMap_cons] at h
    have hdrop := h.drop (n := (octetsOf newline c).length) (by simp)
    rw [drop_left] at hdrop
    have hrest := ih (fun d hd => hscalar d (mem_cons_of_mem _ hd))
      (hcr.imp_right fun hmem hd => hmem (mem_cons_of_mem _ hd)) hdrop
    have hlen := length_octetsOf newline (hscalar c mem_cons_self)
    have hpos : 0 < (octetsOf newline c).length := by
      have := charLenAsUtf8_cases c
      omega
    have hlt : pos < last := h.pos_lt fun h0 => by
      rw [(append_eq_nil_iff.1 h0).1] at hpos
      exact absurd hpos (lt_irrefl 0)
    have hstep : bytesPerUtf8Character array pos last (newline = .crlf) =
      some ((octetsOf newline c).length, none) ∧
        simpleGetUtf8Char array pos last newline (octetsOf newline c).length = some c := by
      by_cases h10 : c = 10
      · subst h10
        cases newline with
        | lf =>
          exact ⟨bytesPerUtf8Character_char h ((isChar_one 10).2 (by decide)) (by simp),
            simpleGetUtf8Char_char h ((isChar_one 10).2 (by decide)) .lf⟩
        | cr =>
          exact ⟨bytesPerUtf8Character_char h ((isChar_one 13).2 (by decide)) (by simp),
            simpleGetUtf8Char_char h ((isChar_one 13).2 (by decide)) .cr⟩
        | crlf => exact ⟨bytesPerUtf8Character_crlf h rfl, simpleGetUtf8Char_crlf h rfl⟩
      · obtain ⟨hchar, hvalue⟩ := isChar_octetsOf (hscalar c mem_cons_self)
        rw [octetsOf_eq newline h10] at h ⊢
        refine ⟨bytesPerUtf8Character_char h hchar fun hcrlf => ?_, ?_⟩
        · rw [hcrlf.2] at hvalue
          rcases hc with hc | hc
          · rw [hc] at hcrlf
            simp at hcrlf
          · exact hc hvalue.symm
        · rw [simpleGetUtf8Char_char h hchar newline, hvalue, if_neg]
          rintro ⟨h1, h2⟩
          rcases hc with hc | hc
          · rw [hc] at h1
            cases h1
          · exact hc h2
    exact utf8ToString_char hlt hpos hstep.1 hstep.2 hrest

end Step

/-- The codec: strings come back from their octets in every variant, the octets that are decoded
without an error are the well-formed ones and come back from their string, and every step of the
decoder goes on, within the octets and without skipping a character. -/
theorem utf8_codec :
    (∀ (newline : Newline) (encodingError : ℕ → List Octet) (decodingError : ℕ → ℕ → List ℕ)
        (base : Bool) (string : List ℕ) (nullPadding : ℕ),
      (∀ c ∈ string, IsScalar c) → (base = true → ∀ c ∈ string, c < 128) →
        (newline = .lf ∨ 13 ∉ string) →
      ∃ octets, stringToUtf8 newline encodingError base string nullPadding =
        some (octets ++ replicate nullPadding 0) ∧
        utf8ToString newline decodingError octets 0 octets.length = some ⟨string, []⟩) ∧
    (∀ (encodingError : ℕ → List Octet) (decodingError : ℕ → ℕ → List ℕ) (octets : List Octet),
      ∃ d, utf8ToString .lf decodingError octets 0 octets.length = some d ∧
        (d.errors = [] ↔ WellFormed octets) ∧
        (d.errors = [] → stringToUtf8 .lf encodingError false d.string 0 = some octets)) ∧
    ∀ (newline : Newline) (decodingError : ℕ → ℕ → List ℕ) (array : List Octet) (pos last : ℕ),
      last ≤ array.length → pos ≤ last →
      (∃ d, utf8ToString newline decodingError array pos last = some d) ∧
      (pos < last → ∃ n invalid, bytesPerUtf8Character array pos last (newline = .crlf) =
        some (n, invalid) ∧ 1 ≤ n ∧ n ≤ last - pos ∧
        (invalid.isSome → invalid = some (pos + n) ∧
          ∀ j, j < n → ¬ StartsChar ((array.take last).drop (pos + j)))) := by
  refine ⟨fun newline encodingError decodingError base string nullPadding hscalar hbase hcr => ?_,
    fun encodingError decodingError octets => ?_,
    fun newline decodingError array pos last hlast hpos => ?_⟩
  · refine ⟨_, stringToUtf8_eq newline encodingError nullPadding hscalar hbase, ?_⟩
    have h := left_intro (string.flatMap (octetsOf newline)) (Nat.zero_le _) le_rfl
    rw [take_length, drop_zero] at h
    exact utf8ToString_octetsOf newline hscalar hcr h
  · have h := left_intro octets (Nat.zero_le _) le_rfl
    rw [take_length, drop_zero] at h
    obtain ⟨d, hd⟩ := utf8ToString_total .lf decodingError h
    have hiff : d.errors = [] ↔ WellFormed octets := by
      refine ⟨wellFormed_of_utf8ToString h hd, ?_⟩
      rintro ⟨chars, hchars, rfl⟩
      rw [utf8ToString_wellFormed hchars h, some_inj] at hd
      rw [← hd]
    refine ⟨d, hd, hiff, fun herrors => ?_⟩
    obtain ⟨chars, hchars, rfl⟩ := hiff.1 herrors
    rw [utf8ToString_wellFormed hchars h, some_inj] at hd
    rw [← hd, stringToUtf8_eq .lf encodingError 0 _ (by simp)]
    · rw [replicate_zero, append_nil, flatMap_map, ← flatMap_id]
      refine congrArg some (flatMap_congr fun c hc => ?_)
      unfold octetsOf
      rw [(isChar_value (hchars c hc)).2]
      rfl
    · intro c hc
      obtain ⟨o, ho, rfl⟩ := mem_map.1 hc
      exact (isChar_value (hchars o ho)).1
  · have h := left_intro array hpos hlast
    refine ⟨utf8ToString_total newline decodingError h, fun hlt => ?_⟩
    have hne : (array.take last).drop pos ≠ [] := by
      rw [← length_pos_iff_ne_nil, ← h.length]
      omega
    by_cases hstart : StartsChar ((array.take last).drop pos)
    · obtain ⟨o, rest, ho, heq⟩ := hstart
      rw [heq] at h
      have hlen := h.length
      rw [length_append] at hlen
      by_cases hcr : newline = .crlf ∧ o = [13]
      · obtain ⟨rfl, rfl⟩ := hcr
        refine ⟨_, none, bytesPerUtf8Character_crlf h rfl, ?_, ?_, fun hc => by cases hc⟩
        · split <;> decide
        split
        · have := (List.getElem?_eq_some_iff.1 ‹_›).1
          rw [length_append] at this
          omega
        · omega
      · exact ⟨_, none, bytesPerUtf8Character_char h ho (by simpa using hcr),
          length_pos_of_isChar ho, by omega, fun hc => by cases hc⟩
    · obtain ⟨k, h1, h2, hbytes, hskip⟩ :=
        bytesPerUtf8Character_malformed (newline = .crlf) h hne hstart
      refine ⟨k, _, hbytes, h1, by rw [h.length]; exact h2, fun _ => ⟨rfl, fun j hj => ?_⟩⟩
      rcases Nat.eq_zero_or_pos j with rfl | hj0
      · exact hstart
      · rw [← drop_drop]
        exact hskip j hj0 hj

/-- A newline and a character of two octets, where a newline is two octets. -/
theorem utf8_codec_crlf : ∃ octets,
    stringToUtf8 .crlf (fun _ => []) false [10, 0xe9] 0 = some (octets ++ replicate 0 0) ∧
      utf8ToString .crlf (fun _ _ => []) octets 0 octets.length = some ⟨[10, 0xe9], []⟩ :=
  utf8_codec.1 .crlf (fun _ => []) (fun _ _ => []) false [10,
    0xe9] 0 (by unfold IsScalar charCodeLimit; simp) (by simp) (.inr (by decide))

end Sbcl.Utf8
