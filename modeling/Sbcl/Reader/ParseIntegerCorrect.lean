import Sbcl.Lib.Segments
import Sbcl.Reader.IntegerCorrect
import Sbcl.Reader.ParseInteger

/-!
# Parsing an integer of any string is position-correct but for one exit

* `dataVector_spec`, `segment_dataVector` : a part of the data vector is the part of the string;
* `Reading`, `Denotes` : a part of a string as whitespace, a sign and digits before the rest, and as
  a numeral only;
* `skipWhitespace_spec`, `skipTrailing_spec`, `computeAt_spec` : the loops, on the parts of a
  reading;
* `parseIntegerData_reading` : the body, on the parts of a reading;
* `parseIntegerOf_correct_iff` : the result is that of the string, but for whitespace only with an
  offset and junk allowed.
-/

namespace Sbcl.Reader

open Sbcl.Printer Numeral Segments List Option

variable {foundDigit junkAllowed : Bool} {char : Char} {after before chars rest sign : List Char}
  {limit : Option ℕ} {index result : ℕ} {n : ℤ}

/-! ## Parts of the data vector -/

theorem segment_charAt {data : List Char} {start stop : ℕ} (h : start < stop)
    (hstop : stop ≤ data.length) :
    segment data start stop = charAt data start :: segment data (start + 1) stop :=
  segment_of_lt h hstop default

/-- How far the elements of a string are into its data vector. -/
def StringArray.offset (string : StringArray) : ℕ := (string.dataVector 0).2

theorem dataVector_spec {string : StringArray} (h : string.WellFormed) (cumulativeOffset : ℕ) :
    string.dataVector cumulativeOffset = ((string.dataVector 0).1,
      cumulativeOffset + string.offset) ∧
      string.offset + string.elements.length ≤ (string.dataVector 0).1.length ∧
      string.elements =
        ((string.dataVector 0).1.drop string.offset).take string.elements.length := by
  induction string generalizing cumulativeOffset with
  | simple data =>
    refine ⟨rfl, ?_, ?_⟩
    · exact (Nat.zero_add _).le
    · exact (take_length).symm
  | header data displacement totalSize fillPointer ih =>
    obtain ⟨hdata, hsize, -⟩ := h
    obtain ⟨hvector, hlength, helements⟩ := ih hdata (0 + displacement)
    have hoffset : (StringArray.header data displacement totalSize fillPointer).offset =
        displacement + data.offset :=
      (congrArg Prod.snd hvector).trans (by rw [Nat.zero_add])
    have hfirst : ((StringArray.header data displacement totalSize fillPointer).dataVector 0).1 =
        (data.dataVector 0).1 := by
      rw [StringArray.dataVector, hvector]
    have hcount :
        (StringArray.header data displacement totalSize fillPointer).elements.length =
          totalSize := by
      rw [StringArray.elements, length_take, length_drop]
      omega
    rw [hoffset, hfirst, hcount]
    refine ⟨?_, by omega, ?_⟩
    · rw [StringArray.dataVector, (ih hdata _).1, Nat.add_assoc]
    · rw [StringArray.elements]
      nth_rewrite 1 [helements]
      rw [drop_take, take_take, drop_drop, Nat.add_comm data.offset, Nat.min_eq_left (by omega)]

theorem length_chars {string : StringArray} (h : string.WellFormed) :
    string.chars.length = string.length := by
  rw [StringArray.chars, length_take]
  cases string with
  | simple data => exact Nat.min_self _
  | header data displacement totalSize fillPointer =>
    obtain ⟨-, hsize, hfill⟩ := h
    rw [StringArray.elements, length_take, length_drop, StringArray.length]
    omega

theorem segment_dataVector {string : StringArray} (h : string.WellFormed) (start : ℕ) {stop : ℕ}
    (hstop : stop ≤ string.length) :
    segment (string.dataVector 0).1 (string.offset + start)
      (string.offset + stop) = segment string.chars start stop ∧
      string.offset + stop ≤ (string.dataVector 0).1.length := by
  obtain ⟨-, hlength, helements⟩ := dataVector_spec h 0
  have hchars := length_chars h
  have hle : string.length ≤ string.elements.length := by
    rw [StringArray.chars, length_take] at hchars
    omega
  refine ⟨?_, by omega⟩
  have hdata : string.chars = ((string.dataVector 0).1.drop string.offset).take string.length := by
    rw [StringArray.chars]
    nth_rewrite 1 [helements]
    rw [take_take, Nat.min_eq_left hle]
  rw [Segments.segment, Segments.segment, hdata, drop_take, take_take, drop_drop,
    Nat.min_eq_left (by omega), Nat.add_sub_add_left]

/-! ## Readings -/

section Readings

variable (ucdDecimalDigit : ℕ → Option ℕ) (radix : ℕ)

/-- The weights of digits. -/
def weights (digits : List Char) : List ℕ :=
  digits.filterMap fun char => digitCharP ucdDecimalDigit char radix

def DigitIn (char : Char) : Prop := (digitCharP ucdDecimalDigit char radix).isSome

/-- The integer of a sign and digits. -/
def signed (sign digits : List Char) : ℤ :=
  if sign = ['-'] then -(horner radix 0 (weights ucdDecimalDigit radix digits) : ℤ)
  else horner radix 0 (weights ucdDecimalDigit radix digits)

def SignOf (sign : List Char) : Prop := sign = [] ∨ sign = ['+'] ∨ sign = ['-']

/-- Whitespace, a sign if there is one, and digits, as far as they go, before the rest. -/
structure Reading (chars before sign digits after : List Char) : Prop where
  parts : chars = before ++ (sign ++ (digits ++ after))
  whitespace : ∀ char ∈ before, whitespace1p char = true
  isSign : SignOf sign
  areDigits : ∀ char ∈ digits, DigitIn ucdDecimalDigit radix char
  first : ∀ char ∈ (sign ++ (digits ++ after)).head?, whitespace1p char = false
  unsigned : sign = [] → ∀ char ∈ (digits ++ after).head?, char ≠ '-' ∧ char ≠ '+'
  last : ∀ char ∈ after.head?, ¬ DigitIn ucdDecimalDigit radix char

/-- Optional whitespace around one optionally signed numeral. -/
def Denotes (chars : List Char) (n : ℤ) : Prop :=
  ∃ before sign digits after, chars = before ++ (sign ++ (digits ++ after)) ∧
    (∀ char ∈ before, whitespace1p char = true) ∧ SignOf sign ∧
    digits ≠ [] ∧ (∀ char ∈ digits, DigitIn ucdDecimalDigit radix char) ∧
    (∀ char ∈ after, whitespace1p char = true) ∧ n = signed ucdDecimalDigit radix sign digits

variable {ucdDecimalDigit radix}

theorem digitCharP_lt {weight : ℕ} (h : digitCharP ucdDecimalDigit char radix = some weight) :
    weight < radix := by
  unfold digitCharP at h
  dsimp only at h
  split_ifs at h with h1 h2 h3 h4 h5 h6
  · exact some_inj.1 h ▸ h4
  · have := some_inj.1 h
    omega
  · have := some_inj.1 h
    omega
  · split at h
    · exact absurd h (by simp)
    · split_ifs at h with h7
      exact some_inj.1 h ▸ h7

theorem DigitIn.le (h : DigitIn ucdDecimalDigit radix char) : 48 ≤ char.toNat := by
  by_contra! hlt
  unfold DigitIn digitCharP at h
  rw [if_pos (by omega), if_pos hlt] at h
  exact absurd h (by simp)

theorem DigitIn.not_whitespace (h : DigitIn ucdDecimalDigit radix char) :
    whitespace1p char = false := by
  have hle := h.le
  simp only [whitespace1p, mem_cons, not_mem_nil, or_false, decide_eq_false_iff_not]
  omega

theorem DigitIn.not_sign (h : DigitIn ucdDecimalDigit radix char) : char ≠ '-' ∧ char ≠ '+' := by
  have hle := h.le
  constructor <;> rintro rfl <;> exact absurd hle (by decide)

theorem not_digitIn_of_whitespace (h : whitespace1p char = true) :
    ¬ DigitIn ucdDecimalDigit radix char :=
  fun hdigit => absurd (h.symm.trans hdigit.not_whitespace) (by decide)

theorem sign_not_whitespace (h : SignOf sign) : ∀ char ∈ sign.head?, whitespace1p char = false := by
  intro char hchar
  rcases h with rfl | rfl | rfl
  · exact absurd hchar (not_mem_none char)
  · obtain rfl := mem_some_iff.1 hchar
    rfl
  · obtain rfl := mem_some_iff.1 hchar
    rfl

theorem Denotes.reading (h : Denotes ucdDecimalDigit radix chars n) :
    ∃ before sign digits after, Reading ucdDecimalDigit radix chars before sign digits after ∧
      digits ≠ [] ∧
      (∀ char ∈ after, whitespace1p char = true) ∧
        n = signed ucdDecimalDigit radix sign digits := by
  obtain ⟨before, sign, digits, after, hparts, hbefore, hsign, hne, hdigits, hafter, hn⟩ := h
  obtain ⟨digit, more, rfl⟩ := exists_cons_of_ne_nil hne
  have hdigit := hdigits digit mem_cons_self
  refine ⟨before, sign, digit :: more, after, ⟨hparts, hbefore, hsign, hdigits, ?_, ?_, ?_⟩,
    hne, hafter, hn⟩
  · intro char hchar
    rcases sign with _ | ⟨mark, sign⟩
    · rw [nil_append, cons_append, head?_cons, mem_some_iff] at hchar
      exact hchar ▸ hdigit.not_whitespace
    · exact sign_not_whitespace hsign char hchar
  · intro _ char hchar
    rw [cons_append, head?_cons, mem_some_iff] at hchar
    exact hchar ▸ hdigit.not_sign
  · exact fun char hchar => not_digitIn_of_whitespace (hafter char (mem_of_mem_head? hchar))

theorem exists_reading (ucdDecimalDigit : ℕ → Option ℕ) (radix : ℕ) (chars : List Char) :
    ∃ before sign digits after, Reading ucdDecimalDigit radix chars before sign digits after := by
  have hsplit : ∀ rest : List Char, ∃ digits after, rest = digits ++ after ∧
      (∀ char ∈ digits, DigitIn ucdDecimalDigit radix char) ∧
      ∀ char ∈ after.head?, ¬ DigitIn ucdDecimalDigit radix char := by
    intro rest
    refine ⟨rest.takeWhile fun char => (digitCharP ucdDecimalDigit char radix).isSome,
      rest.dropWhile fun char => (digitCharP ucdDecimalDigit char radix).isSome,
      takeWhile_append_dropWhile.symm,
      fun char hchar => all_eq_true.1 all_takeWhile char hchar, fun char hchar => ?_⟩
    have hnot :=
      head?_dropWhile_not (fun char => (digitCharP ucdDecimalDigit char radix).isSome) rest
    rw [mem_def.1 hchar] at hnot
    unfold DigitIn
    rw [hnot]
    exact Bool.false_ne_true
  have hbefore : ∀ char ∈ chars.takeWhile whitespace1p, whitespace1p char = true :=
    fun char hchar =>
    all_eq_true.1 all_takeWhile char hchar
  have hfirst : ∀ char ∈ (chars.dropWhile whitespace1p).head?, whitespace1p char = false := by
    intro char hchar
    have hnot := head?_dropWhile_not whitespace1p chars
    rw [mem_def.1 hchar] at hnot
    exact hnot
  have hparts : chars = chars.takeWhile whitespace1p ++ chars.dropWhile whitespace1p :=
    takeWhile_append_dropWhile.symm
  -- the sign is there or not
  by_cases hmark : ∃ sign rest, chars.dropWhile whitespace1p = sign ++ rest ∧
    (sign = ['+'] ∨ sign = ['-'])
  · obtain ⟨sign, rest, hrest, hsign⟩ := hmark
    obtain ⟨digits, after, rfl, hdigits, hlast⟩ := hsplit rest
    refine ⟨_, sign, digits, after,
      ⟨hrest ▸ hparts, hbefore, .inr hsign, hdigits, hrest ▸ hfirst, ?_, hlast⟩⟩
    rintro rfl
    rcases hsign with h | h <;> exact absurd h (by simp)
  · obtain ⟨digits, after, hrest, hdigits, hlast⟩ := hsplit (chars.dropWhile whitespace1p)
    refine ⟨_, [], digits, after, ⟨hrest ▸ hparts, hbefore, .inl rfl, hdigits, hrest ▸ hfirst,
      fun _ char hchar => ?_, hlast⟩⟩
    rw [← hrest] at hchar
    obtain ⟨tail, htail⟩ := head?_eq_some_iff.1 hchar
    constructor <;> rintro rfl
    · exact hmark ⟨['-'], tail, htail, .inr rfl⟩
    · exact hmark ⟨['+'], tail, htail, .inl rfl⟩

end Readings

/-! ## The loops -/

section Loops

variable {ucdDecimalDigit : ℕ → Option ℕ} {radix : ℕ} {data : List Char} {stop : ℕ}

theorem skipWhitespace_spec (hstop : stop ≤ data.length) {i : ℕ}
    (hsegment : segment data i stop = before ++ rest)
    (hbefore : ∀ char ∈ before, whitespace1p char = true)
    (hfirst : ∀ char ∈ rest.head?, whitespace1p char = false) :
    skipWhitespace data stop i = if rest = [] then none else some (i + before.length) := by
  fun_induction skipWhitespace data stop i generalizing before with
  | case1 i hle =>
    rw [segment_of_le hle] at hsegment
    rw [if_pos (append_eq_nil_iff.1 hsegment.symm).2]
  | case2 i hlt hwhite ih =>
    rw [segment_charAt (not_le.1 hlt) hstop] at hsegment
    rcases before with _ | ⟨char, before⟩
    · rw [nil_append] at hsegment
      have := hfirst (charAt data i) (by rw [← hsegment]; rfl)
      exact absurd (hwhite.symm.trans this) (by decide)
    · rw [ih (List.cons.inj hsegment).2 fun c hc => hbefore c (mem_cons_of_mem _ hc), length_cons,
        Nat.add_assoc, Nat.add_comm 1]
  | case3 i hlt hwhite =>
    rw [segment_charAt (not_le.1 hlt) hstop] at hsegment
    rcases before with _ | ⟨char, before⟩
    · rw [nil_append] at hsegment
      rw [if_neg (by rw [← hsegment]; simp), length_nil, Nat.add_zero]
    · exact absurd ((List.cons.inj hsegment).1 ▸ hbefore char mem_cons_self) hwhite

theorem skipTrailing_spec (hstop : stop ≤ data.length) (hindex : index < stop) :
    skipTrailing data stop index = if (segment data (index + 1) stop).all whitespace1p then
      some stop else none := by
  fun_induction skipTrailing data stop index with
  | case1 index next hle =>
    rw [segment_of_le hle, all_nil, if_pos rfl]
    exact congrArg some (by omega)
  | case2 index next hlt hwhite ih =>
    rw [ih (not_le.1 hlt), segment_charAt (not_le.1 hlt) hstop, all_cons, hwhite, Bool.true_and]
  | case3 index next hlt hwhite =>
    rw [segment_charAt (not_le.1 hlt) hstop, all_cons, Bool.eq_false_iff.2 hwhite, Bool.false_and,
      if_neg Bool.false_ne_true]

theorem computeAt_after (hstop : stop ≤ data.length) (hindex : index ≤ stop)
    (hsegment : segment data index stop = after)
    (hlast : ∀ char ∈ after.head?, ¬ DigitIn ucdDecimalDigit radix char) :
    computeAt ucdDecimalDigit limit radix junkAllowed data stop index result foundDigit =
      some (if junkAllowed ∨ after.all whitespace1p then .ok ⟨result, foundDigit,
        if junkAllowed then index else stop⟩
        else .error .junk) := by
  rw [computeAt]
  by_cases hle : stop ≤ index
  · rw [segment_of_le hle] at hsegment
    subst hsegment
    obtain rfl := Nat.le_antisymm hindex hle
    rw [if_pos hle, ite_self, all_nil, if_pos (.inr rfl)]
  have hlt := not_le.1 hle
  rw [segment_charAt hlt hstop] at hsegment
  subst hsegment
  have hnone : digitCharP ucdDecimalDigit (charAt data index) radix = none :=
    not_isSome_iff_eq_none.1 (hlast _ rfl)
  rw [if_neg hle]
  dsimp only
  rw [hnone, all_cons]
  by_cases hjunk : junkAllowed = true
  · rw [if_pos hjunk, if_pos (.inl hjunk), if_pos hjunk]
  rw [if_neg hjunk, if_neg hjunk]
  by_cases hwhite : whitespace1p (charAt data index) = true
  · rw [if_pos hwhite, skipTrailing_spec hstop hlt, hwhite, Bool.true_and]
    by_cases hall : (segment data (index + 1) stop).all whitespace1p = true
    · rw [if_pos hall, if_pos (.inr hall)]
    · rw [if_neg hall, if_neg (not_or.2 ⟨hjunk, hall⟩)]
  · rw [if_neg hwhite, Bool.eq_false_iff.2 hwhite, Bool.false_and,
      if_neg (not_or.2 ⟨hjunk, Bool.false_ne_true⟩)]

theorem computeAt_spec (hpos : 0 < radix) (hstop : stop ≤ data.length)
    {digits after : List Char} (hindex : index ≤ stop)
    (hsegment : segment data index stop = digits ++ after)
    (hdigits : ∀ char ∈ digits, DigitIn ucdDecimalDigit radix char)
    (hlast : ∀ char ∈ after.head?, ¬ DigitIn ucdDecimalDigit radix char)
    (hlimit : ∀ m, limit = some m →
      horner radix result (weights ucdDecimalDigit radix digits) < m) :
    computeAt ucdDecimalDigit limit radix junkAllowed data stop index result foundDigit =
      some (if junkAllowed ∨ after.all whitespace1p then
        .ok ⟨horner radix result (weights ucdDecimalDigit radix digits),
          foundDigit || !digits.isEmpty, if junkAllowed then index + digits.length else stop⟩
      else .error .junk) := by
  induction digits generalizing index result foundDigit with
  | nil =>
    rw [computeAt_after hstop hindex hsegment hlast, isEmpty_nil, Bool.not_true,
      Bool.or_false, length_nil, Nat.add_zero]
    rfl
  | cons digit digits ih =>
    have hlt : index < stop := by
      by_contra hle
      rw [segment_of_le (not_lt.1 hle)] at hsegment
      exact absurd hsegment (by simp)
    rw [segment_charAt hlt hstop, cons_append] at hsegment
    obtain ⟨hchar, hrest⟩ := List.cons.inj hsegment
    obtain ⟨weight, hweight⟩ := isSome_iff_exists.1 (hdigits digit mem_cons_self)
    have hweights : weights ucdDecimalDigit radix (digit :: digits) = weight ::
        weights ucdDecimalDigit radix digits :=
      filterMap_cons_some hweight
    have hnext : horner radix result (weights ucdDecimalDigit radix (digit :: digits)) =
        horner radix (weight + result * radix) (weights ucdDecimalDigit radix digits) := by
      rw [hweights, horner_cons, Nat.add_comm]
    have hbelow : limit.all (fun limit => weight + result * radix < limit) = true := by
      rcases hm : limit with _ | m
      · rfl
      · have hle := le_horner hpos (weight + result * radix) (weights ucdDecimalDigit radix digits)
        exact decide_eq_true (hle.trans_lt (hnext ▸ hlimit m hm))
    have hle : index + 1 ≤ stop := hlt
    rw [computeAt, if_neg (not_le.2 hlt), hchar]
    dsimp only
    rw [hweight]
    dsimp only
    rw [if_pos hbelow, ih hle hrest (fun char hmem => hdigits char (mem_cons_of_mem _ hmem))
      (fun m hm => hnext ▸ hlimit m hm), hnext, Bool.true_or, isEmpty_cons,
      Bool.not_false, Bool.or_true, length_cons, Nat.add_assoc, Nat.add_comm 1]

end Loops

/-! ## The body -/

section Body

variable {ucdDecimalDigit : ℕ → Option ℕ}

variable {radix : ℕ} {digits : List Char}

theorem weights_lt : ∀ w ∈ weights ucdDecimalDigit radix digits, w < radix := by
  intro w hw
  obtain ⟨char, -, hchar⟩ := mem_filterMap.1 hw
  exact digitCharP_lt hchar

theorem length_weights_le :
    (weights ucdDecimalDigit radix digits).length ≤ digits.length := length_filterMap_le _ _

theorem Reading.mark
    (h : Reading ucdDecimalDigit radix chars before sign digits after)
    (hrest : sign ++ (digits ++ after) = char :: rest) (index : ℕ) :
    (if char = '-' ∨ char = '+' then index + 1 else index) = index + sign.length ∧
    (char = '-' ↔ sign = ['-']) := by
  rcases hsign : sign with _ | ⟨mark, none⟩
  · have hhead : (digits ++ after).head? = some char := by
      rw [hsign, nil_append] at hrest
      rw [hrest, head?_cons]
    obtain ⟨hminus, hplus⟩ := h.unsigned hsign char hhead
    exact ⟨if_neg (not_or.2 ⟨hminus, hplus⟩), iff_of_false hminus (by simp)⟩
  · have his := h.isSign
    rw [hsign] at his hrest
    obtain ⟨rfl, -⟩ :=
      List.cons.inj (show mark :: (none ++ (digits ++ after)) = char :: rest from hrest)
    rcases his with h0 | h0 | h0
    · exact absurd h0 (by simp)
    · obtain ⟨rfl, rfl⟩ := List.cons.inj h0
      exact ⟨rfl, by decide⟩
    · obtain ⟨rfl, rfl⟩ := List.cons.inj h0
      exact ⟨rfl, by decide⟩

theorem parseIntegerData_reading {wordLength : Option ℕ} (hpos : 0 < radix)
    (hword : ∀ m, wordLength = some m → radix ^ m ≤ 2 ^ nWordBits) (junkAllowed : Bool)
    (string : ArrayData)
    (hstop : string.stop ≤ string.data.length) (hstart : string.start ≤ string.stop)
    (h : Reading ucdDecimalDigit radix (segment string.data string.start string.stop) before
      sign digits after) :
    parseIntegerData ucdDecimalDigit wordLength radix junkAllowed string =
      some (if sign ++ (digits ++ after) = [] then
        if junkAllowed then .ok (none, string.stop) else .error .noNonWhitespace
      else if junkAllowed then
        .ok (if digits = [] then none else some (signed ucdDecimalDigit radix sign digits),
          string.start + (before.length + sign.length + digits.length) - string.offset)
      else if ¬ after.all whitespace1p then .error .junk
      else if digits = [] then .error .noDigits
      else .ok (some (signed ucdDecimalDigit radix sign digits), string.stop - string.offset)) := by
  unfold parseIntegerData
  rw [skipWhitespace_spec hstop h.parts h.whitespace h.first]
  have htail := segment_append hstop h.parts
  rcases hrest : sign ++ (digits ++ after) with _ | ⟨char, rest⟩
  · rw [if_pos rfl, if_pos rfl]
  rw [if_neg (cons_ne_nil char rest), if_neg (cons_ne_nil char rest)]
  dsimp only
  rw [hrest] at htail
  have hlt : string.start + before.length < string.stop := by
    by_contra hle
    rw [segment_of_le (not_lt.1 hle)] at htail
    exact absurd htail (by simp)
  have hchar : charAt string.data (string.start + before.length) = char := by
    rw [segment_charAt hlt hstop] at htail
    exact (List.cons.inj htail).1
  obtain ⟨hindex, hminus⟩ := h.mark hrest (string.start + before.length)
  have hdigits := segment_append hstop (hrest ▸ htail : segment string.data _ string.stop = sign ++
    (digits ++ after))
  have hcount : before.length + (sign.length + (digits.length + after.length)) =
      string.stop - string.start := by
    rw [← length_segment _ hstop, h.parts, length_append, length_append, length_append]
  have hle : string.start + before.length + sign.length ≤ string.stop := by omega
  rw [hchar, hindex, computeAt_spec hpos hstop hle hdigits h.areDigits h.last]
  · have hvalue :
      (if char = '-' then -((horner radix 0 (weights ucdDecimalDigit radix digits) : ℕ) : ℤ)
        else (horner radix 0 (weights ucdDecimalDigit radix digits) : ℕ)) =
        signed ucdDecimalDigit radix sign digits := by
      simp only [signed, hminus]
    rcases hjunk : junkAllowed with _ | _
    · by_cases hall : after.all whitespace1p = true
      · rw [if_pos (.inr hall)]
        dsimp only
        rw [hvalue]
        by_cases hnil : digits = [] <;> simp [hnil, hall]
      · simp [hall]
    · rw [if_pos (.inl rfl)]
      dsimp only
      rw [hvalue]
      by_cases hnil : digits = [] <;> simp [hnil, Nat.add_assoc]
  · -- a word holds as many digits as are left
    intro m hm
    obtain ⟨maxLength, hmax, hite⟩ := bind_eq_some_iff.1 hm
    split at hite
    · rename_i hlength
      have hfew : (weights ucdDecimalDigit radix digits).length ≤ maxLength :=
        length_weights_le.trans (by omega)
      exact some_inj.1 hite ▸ (horner_lt weights_lt).trans_le
        ((Nat.pow_le_pow_right hpos hfew).trans (hword maxLength hmax))
    · exact absurd hite (by simp)

theorem Variant.pow_wordLength_le (variant : Variant) (m : ℕ) (h : variant.wordLength = some m) :
    variant.radix.val ^ m ≤ 2 ^ nWordBits := by
  cases variant with
  | parseInteger radix => exact absurd h (by simp [Variant.wordLength])
  | parseInteger10 => exact some_inj.1 h ▸ pow_maxLength_le _
  | parseInteger16 => exact some_inj.1 h ▸ pow_maxLength_le _

end Body

/-! ## The parsers -/

section Parsers

variable (ucdDecimalDigit : ℕ → Option ℕ) (variant : Variant)

/-- The part of a string between two indices. -/
def StringArray.part (string : StringArray) (start : ℕ) (stop : Option ℕ) : List Char :=
  segment string.chars start (stop.getD string.length)

/-- The result that belongs to a part of a string: its integer and an index of the string, or an
error. -/
def BelongsTo (string : StringArray) (start : ℕ) (stop : Option ℕ) (junkAllowed : Bool) :
    Option (Except ParseError (Option ℤ × ℕ)) → Prop
  | none => False
  | some (.error _) =>
    junkAllowed = false ∧ ¬ ∃ n,
      Denotes ucdDecimalDigit variant.radix.val (string.part start stop) n
  | some (.ok (value, index)) =>
    if junkAllowed then
      ∃ before sign digits after,
        Reading ucdDecimalDigit variant.radix.val (string.part start stop) before
        sign digits after ∧
          value = (if digits = [] then none
            else some (signed ucdDecimalDigit variant.radix.val sign digits)) ∧
          index = start + (before ++ sign ++ digits).length
    else
      ∃ n, Denotes ucdDecimalDigit variant.radix.val (string.part start stop) n ∧ value = some n ∧
        index = stop.getD string.length

variable {ucdDecimalDigit variant}

variable {string : StringArray} {start : ℕ} {stop : Option ℕ}

/-- The result, on the parts of a reading: at the end of a string without other characters than
whitespace the index is not moved back by the offset. -/
theorem parseIntegerOf_reading (hstring : string.WellFormed)
    (hstart : start ≤ stop.getD string.length) (hstop : stop.getD string.length ≤ string.length)
    (junkAllowed : Bool) {before sign digits after : List Char}
    (h : Reading ucdDecimalDigit variant.radix.val (string.part start stop) before
      sign digits after) :
    parseIntegerOf ucdDecimalDigit variant string start stop junkAllowed =
      some (if sign ++ (digits ++ after) = [] then
        if junkAllowed then .ok (none, string.offset + stop.getD string.length)
          else .error .noNonWhitespace
      else if junkAllowed then
        .ok (if digits = [] then none
          else some (signed ucdDecimalDigit variant.radix.val sign digits),
          start + (before.length + sign.length + digits.length))
      else if ¬ after.all whitespace1p then .error .junk
      else if digits = [] then .error .noDigits
      else .ok (some (signed ucdDecimalDigit variant.radix.val sign digits),
        stop.getD string.length)) := by
  obtain ⟨hsegment, hlength⟩ := segment_dataVector hstring start hstop
  have hreading : Reading ucdDecimalDigit variant.radix.val
      (segment (string.dataVector 0).1 (string.offset + start)
        (string.offset + stop.getD string.length))
      before sign digits after := by
    rw [hsegment]
    exact h
  unfold parseIntegerOf withArrayData
  dsimp only
  rw [if_pos ⟨hstart, hstop⟩]
  simp only
  refine (parseIntegerData_reading variant.radix.one_lt.le variant.pow_wordLength_le junkAllowed
    ⟨(string.dataVector 0).1, string.offset + start, string.offset + stop.getD string.length,
      string.offset⟩
    hlength (Nat.add_le_add_left hstart _) hreading).trans ?_
  rw [Nat.add_sub_cancel_left, Nat.add_assoc, Nat.add_sub_cancel_left]

theorem parseIntegerOf_denotes (hstring : string.WellFormed)
    (hstart : start ≤ stop.getD string.length) (hstop : stop.getD string.length ≤ string.length)
    (h : Denotes ucdDecimalDigit variant.radix.val (string.part start stop) n) :
    parseIntegerOf ucdDecimalDigit variant string start stop false =
      some (.ok (some n, stop.getD string.length)) := by
  obtain ⟨before, sign, digits, after, hreading, hne, hafter, rfl⟩ := h.reading
  rw [parseIntegerOf_reading hstring hstart hstop false hreading, if_neg (by simp [hne]),
    if_neg Bool.false_ne_true, if_neg (not_not.2 (all_eq_true.2 hafter)), if_neg hne]

theorem belongsTo_false (hstring : string.WellFormed)
    (hstart : start ≤ stop.getD string.length) (hstop : stop.getD string.length ≤ string.length) :
    BelongsTo ucdDecimalDigit variant string start stop false
      (parseIntegerOf ucdDecimalDigit variant string start stop false) := by
  by_cases hnumeral : ∃ n, Denotes ucdDecimalDigit variant.radix.val (string.part start stop) n
  · obtain ⟨n, hn⟩ := hnumeral
    rw [parseIntegerOf_denotes hstring hstart hstop hn]
    exact ⟨n, hn, rfl, rfl⟩
  obtain ⟨before, sign, digits, after, h⟩ :=
    exists_reading ucdDecimalDigit variant.radix.val (string.part start stop)
  have herror : ∃ e, parseIntegerOf ucdDecimalDigit variant string start stop false =
      some (.error e) := by
    rw [parseIntegerOf_reading hstring hstart hstop false h]
    by_cases hrest : sign ++ (digits ++ after) = []
    · rw [if_pos hrest, if_neg Bool.false_ne_true]
      exact ⟨_, rfl⟩
    rw [if_neg hrest, if_neg Bool.false_ne_true]
    by_cases hall : after.all whitespace1p = true
    · rw [if_neg (not_not.2 hall)]
      by_cases hnil : digits = []
      · rw [if_pos hnil]
        exact ⟨_, rfl⟩
      · -- the reading is that of a numeral
        exact absurd ⟨_, before, sign, digits, after, h.parts, h.whitespace, h.isSign,
          hnil, h.areDigits, all_eq_true.1 hall, rfl⟩ hnumeral
    · rw [if_pos hall]
      exact ⟨_, rfl⟩
  obtain ⟨e, he⟩ := herror
  rw [he]
  exact ⟨rfl, hnumeral⟩

theorem belongsTo_true (hstring : string.WellFormed)
    (hstart : start ≤ stop.getD string.length) (hstop : stop.getD string.length ≤ string.length) :
    BelongsTo ucdDecimalDigit variant string start stop true
        (parseIntegerOf ucdDecimalDigit variant string start stop true) ↔
      ¬ ((∀ char ∈ string.part start stop, whitespace1p char = true) ∧ string.offset ≠ 0) := by
  obtain ⟨before, sign, digits, after, h⟩ :=
    exists_reading ucdDecimalDigit variant.radix.val (string.part start stop)
  have hcount : (string.part start stop).length = stop.getD string.length - start :=
    length_segment _ (hstop.trans_eq (length_chars hstring).symm)
  rw [parseIntegerOf_reading hstring hstart hstop true h]
  by_cases hrest : sign ++ (digits ++ after) = []
  · have hall : ∀ char ∈ string.part start stop, whitespace1p char = true := by
      rw [h.parts, hrest, append_nil]
      exact h.whitespace
    rw [if_pos hrest, if_pos rfl]
    constructor
    · rintro ⟨before', sign', digits', after', h', -, hindex⟩ ⟨-, hoffset⟩
      have hle := congrArg List.length h'.parts
      simp only [length_append] at hle hindex
      omega
    intro hnot
    have hzero : string.offset = 0 := not_not.1 fun hne => hnot ⟨hall, hne⟩
    obtain ⟨hsign, hmore⟩ := append_eq_nil_iff.1 hrest
    obtain ⟨hdigits, -⟩ := append_eq_nil_iff.1 hmore
    refine ⟨before, sign, digits, after, h, (if_pos hdigits).symm, ?_⟩
    have hle := congrArg List.length h.parts
    rw [hrest, append_nil] at hle
    rw [hsign, hdigits, append_nil, append_nil, hzero]
    omega
  · rw [if_neg hrest, if_pos rfl]
    refine iff_of_true ⟨before, sign, digits, after, h, rfl, ?_⟩ ?_
    · rw [length_append, length_append]
    rintro ⟨hall, -⟩
    obtain ⟨char, rest, hcons⟩ := exists_cons_of_ne_nil hrest
    have hwhite := hall char (by rw [h.parts, hcons]; simp)
    have hnot := h.first char (by rw [hcons]; rfl)
    exact absurd (hwhite.symm.trans hnot) (by decide)

/-- The result belongs to the part and is that of a simple copy of the string, if and only if the
exit at the end of a string of whitespace is not taken with an offset. -/
theorem parseIntegerOf_correct_iff (ucdDecimalDigit : ℕ → Option ℕ) (variant : Variant)
    {string : StringArray} (hstring : string.WellFormed) {start : ℕ} {stop : Option ℕ}
    (hbounds : start ≤ stop.getD string.length ∧ stop.getD string.length ≤ string.length)
    (junkAllowed : Bool) : BelongsTo ucdDecimalDigit variant string start stop junkAllowed
          (parseIntegerOf ucdDecimalDigit variant string start stop junkAllowed) ∧
        parseIntegerOf ucdDecimalDigit variant string start stop junkAllowed =
          parseIntegerOf ucdDecimalDigit variant (.simple string.chars) start stop junkAllowed ↔
      ¬ (junkAllowed = true ∧ (∀ char ∈ string.part start stop, whitespace1p char = true) ∧
        string.offset ≠ 0) := by
  obtain ⟨hstart, hstop⟩ := hbounds
  have hlength : (StringArray.simple string.chars).length = string.length := length_chars hstring
  have hpart : (StringArray.simple string.chars).part start stop = string.part start stop := by
    rw [StringArray.part, hlength]
    exact congrArg (segment · start _) take_length
  obtain ⟨before, sign, digits, after, h⟩ :=
    exists_reading ucdDecimalDigit variant.radix.val (string.part start stop)
  have hresult := parseIntegerOf_reading hstring hstart hstop junkAllowed h
  have hcopy :=
    parseIntegerOf_reading (show (StringArray.simple string.chars).WellFormed from trivial)
    (hlength ▸ hstart) (hlength ▸ hstop) junkAllowed (hpart ▸ h)
  rw [hlength, show (StringArray.simple string.chars).offset = 0 from rfl, Nat.zero_add] at hcopy
  cases junkAllowed with
  | false =>
    refine iff_of_true ⟨belongsTo_false hstring hstart hstop, ?_⟩ fun hexit =>
      Bool.false_ne_true hexit.1
    rw [hresult, hcopy]
    simp only [if_neg Bool.false_ne_true]
  | true =>
    rw [belongsTo_true hstring hstart hstop, and_iff_left_of_imp, and_iff_right rfl]
    intro hnot
    rw [hresult, hcopy]
    by_cases hrest : sign ++ (digits ++ after) = []
    · have hzero : string.offset = 0 := not_not.1 fun hne => hnot ⟨by
        rw [h.parts, hrest, append_nil]
        exact h.whitespace, hne⟩
      rw [hzero, Nat.zero_add]
    · rw [if_neg hrest, if_neg hrest]

/-- The string "12", of two characters from the second of " 12 " on, by words. -/
theorem parseIntegerOf_correct_displaced :
    BelongsTo (fun _ => none) .parseInteger10
      (.header (.simple [' ', '1', '2', ' ']) 1 2 2) 0 none true
        (parseIntegerOf (fun _ => none) .parseInteger10
          (.header (.simple [' ', '1', '2', ' ']) 1 2 2) 0 none true) ∧
      parseIntegerOf (fun _ => none) .parseInteger10
        (.header (.simple [' ', '1', '2', ' ']) 1 2 2) 0 none true =
        parseIntegerOf (fun _ => none) .parseInteger10
          (.simple (StringArray.header (.simple [' ', '1', '2', ' ']) 1 2 2).chars) 0 none true :=
  (parseIntegerOf_correct_iff _ _
    (show (StringArray.header (.simple [' ', '1', '2',
      ' ']) 1 2 2).WellFormed from ⟨trivial, by decide, by decide⟩)
    (by decide) true).2 fun hexit => Bool.noConfusion (hexit.2.1 '1' (mem_cons_self ..))

/-- The end of the string of two spaces from the second character of three on is 2, and not 3. -/
theorem parseIntegerOf_whitespace :
    parseIntegerOf (fun _ => none) (.parseInteger ⟨10, by decide, by decide⟩)
        (.header (.simple ['a', ' ', ' ']) 1 2 2) 0 none true = some (.ok (none, 3)) ∧
      parseIntegerOf (fun _ => none) (.parseInteger ⟨10, by decide, by decide⟩)
        (.simple (StringArray.header (.simple ['a', ' ', ' ']) 1 2 2).chars) 0 none true =
          some (.ok (none, 2)) := by
  decide +kernel

end Parsers

end Sbcl.Reader
