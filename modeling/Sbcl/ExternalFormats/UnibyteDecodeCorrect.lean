import Sbcl.ExternalFormats.UnibyteDecode
import Sbcl.Lib.Segments
import Mathlib.Data.List.Chain

/-!
# What the decoders of unibyte formats return

* `Piece`, `pieces`, `turnPairs` : the decoded octets one by one, and the pairs of CR and LF octets
  turned into newlines;
* `unibyteToString_ok` : the loop returns the pieces, where the octet after each CR has a
  translation;
* `followed_of_unibyteToString` : the variant for CRLF returns nothing elsewhere;
* `crlf_decoding_iff` : the decoder for CRLF against the plain one.
-/

namespace Sbcl.Unibyte

open Segments List Option
open Utf8 (Newline Octet)

variable {octets : List Octet} {replacement : Option Replacement} {astart : ℕ}
  {useValue : ℕ → Replacement}

/-! ## Pieces -/

/-- What an octet is decoded to: its code, or the text of its replacement. -/
inductive Piece
  | char (code : ℕ)
  | text (codes : List ℕ)

def Piece.chars : Piece → List ℕ
  | char code => [code]
  | text codes => codes

/-- The pieces with each pair of a CR and a LF octet as one newline. -/
def turnPairs : List Piece → List ℕ
  | .char 13 :: .char 10 :: rest => 10 :: turnPairs rest
  | piece :: rest => piece.chars ++ turnPairs rest
  | [] => []

/-- The string of the pieces in a variant of the newline. -/
def turned : Newline → List Piece → List ℕ
  | .lf, pieces => pieces.flatMap Piece.chars
  | .cr, pieces => pieces.flatMap fun piece => match piece with
      | .char code => [if code = 13 then 10 else code]
      | .text codes => codes
  | .crlf, pieces => turnPairs pieces

section Decoding

variable (toCode : Octet → Option ℕ)

/-- The pieces of octets that begin at an index, with the texts for those without a translation. -/
def pieces (text : ℕ → List ℕ) : ℕ → List Octet → List Piece
  | _, [] => []
  | i, octet :: rest => ((toCode octet).elim (.text (text i)) .char) :: pieces text (i + 1) rest

/-- The errors for octets that begin at an index, in their order. -/
def errors (signalled : ℕ → List DecodingError) : ℕ → List Octet → List DecodingError
  | _, [] => []
  | i, octet :: rest => ((toCode octet).elim (signalled i) fun _ => []) ++
    errors signalled (i + 1) rest

/-- The octet after each CR has a translation. -/
def Followed (octets : List Octet) : Prop :=
  octets.IsChain fun octet next => toCode octet = some 13 → toCode next ≠ none

/-- There is no translation for an octet between two indices. -/
def Untranslatable (array : List Octet) (start stop i : ℕ) : Prop :=
  start ≤ i ∧ i < stop ∧ toCode (arrayRef array i) = none

variable {toCode}

theorem turned_nil (newline : Newline) : turned newline [] = [] := by
  cases newline <;> rfl

theorem turned_text (newline : Newline) (codes : List ℕ) (rest : List Piece) :
    turned newline (.text codes :: rest) = codes ++ turned newline rest := by
  cases newline with
  | lf => exact flatMap_cons
  | cr => exact flatMap_cons
  | crlf =>
    rw [turned, turnPairs.eq_2 _ _ (by simp)]
    rfl

theorem turnPairs_char {code : ℕ} {rest : List Piece}
    (h : code = 13 → ∀ tail, rest ≠ .char 10 :: tail) :
    turnPairs (.char code :: rest) = code :: turnPairs rest := by
  rw [turnPairs.eq_2]
  · exact singleton_append
  · rintro tail ⟨⟩ rfl
    exact h rfl tail rfl

/-! ## The loop -/

variable {newline : Newline} {array : List Octet} {aend : ℕ}
    {onError : ℕ → Except TypeError Decoded}

variable {apos : ℕ}

theorem unibyteToString_turn {incremented : ℕ} {content rest : Decoded} (h : apos < aend)
    (hcontent : stringContent toCode newline onError array aend apos = .ok (content, incremented))
    (hrest : unibyteToString toCode newline onError array aend (apos + incremented + 1) =
      .ok rest) :
    unibyteToString toCode newline onError array aend apos = .ok (content.append rest) := by
  rw [unibyteToString, if_neg (not_le.2 h), hcontent]
  dsimp only
  rw [hrest]
  rfl

theorem unibyteToString_end (h : aend ≤ apos) :
    unibyteToString toCode newline onError array aend apos = .ok ⟨[], []⟩ := by
  rw [unibyteToString, if_pos h]

theorem unibyteToString_ok (hend : aend ≤ array.length) (values : ℕ → Decoded)
    (hsegment : segment array apos aend = octets)
    (herror : ∀ i, Untranslatable toCode array apos aend i → onError i = .ok (values i))
    (hfollowed : newline = .crlf → Followed toCode octets) :
    unibyteToString toCode newline onError array aend apos =
      .ok ⟨turned newline (pieces toCode (fun i => (values i).string) apos octets),
        errors toCode (fun i => (values i).signalled) apos octets⟩ := by
  induction hn : octets.length using Nat.strong_induction_on generalizing octets apos with
  | _ n ih =>
    rcases octets with _ | ⟨octet, rest⟩
    · rw [unibyteToString_end (le_of_segment_eq_nil hend hsegment)]
      simp only [pieces, errors, turned_nil]
    obtain ⟨hlt, href, hrest⟩ := segment_eq_cons hend hsegment 0
    have htail : newline = .crlf → Followed toCode rest := fun h => (hfollowed h).tail
    have hnext := ih rest.length (by rw [← hn]; exact Nat.lt_succ_self _) hrest
      (fun i hi => herror i ⟨(Nat.le_succ apos).trans hi.1, hi.2⟩) htail rfl
    rcases hcode : toCode octet with _ | code
    · have hvalue := herror apos ⟨le_rfl, hlt, (congrArg toCode href).trans hcode⟩
      have hcontent : stringContent toCode newline onError array aend apos =
          .ok (values apos, 0) := by
        rw [stringContent, arrayRef, href, hcode]
        rw [hvalue]
        rfl
      rw [unibyteToString_turn hlt hcontent hnext]
      simp only [pieces, errors, hcode, elim_none, turned_text]
      rfl
    · -- a character for one octet
      have hone : ∀ char, stringContent toCode newline onError array aend apos =
        .ok (⟨[char], []⟩, 0) →
          turned newline (.char code ::
            pieces toCode (fun i => (values i).string) (apos + 1) rest) =
            char :: turned newline (pieces toCode (fun i => (values i).string) (apos + 1) rest) →
          unibyteToString toCode newline onError array aend apos =
            .ok ⟨turned newline (pieces toCode (fun i => (values i).string) apos (octet :: rest)),
              errors toCode (fun i => (values i).signalled) apos (octet :: rest)⟩ := by
        intro char hcontent hturned
        rw [unibyteToString_turn hlt hcontent hnext]
        simp only [pieces, errors, hcode, elim_some, hturned]
        rfl
      cases newline with
      | lf => exact hone code (by rw [stringContent, arrayRef, href, hcode]) rfl
      | cr => exact hone (if code = 13 then 10 else code) (by rw [stringContent, arrayRef,
        href, hcode]) rfl
      | crlf =>
        by_cases hcr : code = 13
        · subst hcr
          rcases rest with _ | ⟨next, rest⟩
          · have hlast : apos = aend - 1 :=
              Nat.eq_sub_of_add_eq (eq_succ_of_segment_eq_singleton hend hsegment).symm
            refine hone 13 ?_ rfl
            rw [stringContent, arrayRef, href, hcode]
            simp only [hlast, if_true]
          obtain ⟨hlt', href', hrest'⟩ := segment_eq_cons hend hrest 0
          have hchain := isChain_cons_cons.1 (hfollowed rfl)
          obtain ⟨nextCode, hnextCode⟩ := ne_none_iff_exists'.1 (hchain.1 hcode)
          have hcontent : stringContent toCode .crlf onError array aend apos =
              .ok (if nextCode = 10 then (⟨[10], []⟩, 1) else (⟨[13], []⟩, 0)) := by
            rw [stringContent, arrayRef, href, hcode]
            dsimp only
            rw [if_pos rfl, if_neg (by omega), arrayRef, href', hnextCode]
          by_cases hlf : nextCode = 10
          · -- the pair is one newline
            subst hlf
            have hafter := ih rest.length (by rw [← hn, length_cons, length_cons]; omega) hrest'
              (fun i hi => herror i ⟨(Nat.le_add_right apos 2).trans hi.1, hi.2⟩) (fun _ =>
                hchain.2.tail) rfl
            rw [unibyteToString_turn hlt hcontent hafter]
            simp only [pieces, errors, hcode, hnextCode, elim_some, turned, turnPairs]
            rfl
          · refine hone 13 (hcontent.trans (by rw [if_neg hlf])) (turnPairs_char fun _ tail => ?_)
            simp only [pieces, hnextCode, elim_some]
            rintro ⟨⟩
            exact hlf rfl
        · refine hone code ?_ (turnPairs_char fun h => absurd h hcr)
          rw [stringContent, arrayRef, href, hcode]
          dsimp only
          rw [if_neg hcr]

variable {decoded : Decoded}

theorem turn_of_unibyteToString (h : apos < aend)
    (hdecoded : unibyteToString toCode newline onError array aend apos = .ok decoded) :
    ∃ content incremented rest, stringContent toCode newline onError array aend apos =
      .ok (content, incremented) ∧
      unibyteToString toCode newline onError array aend (apos + incremented + 1) = .ok rest := by
  rw [unibyteToString, if_neg (not_le.2 h)] at hdecoded
  rcases hcontent :
    stringContent toCode newline onError array aend apos with e | ⟨content, incremented⟩
  · rw [hcontent] at hdecoded
    exact absurd hdecoded (by simp)
  rw [hcontent] at hdecoded
  dsimp only at hdecoded
  rcases hrest :
    unibyteToString toCode newline onError array aend (apos + incremented + 1) with e | rest
  · rw [hrest] at hdecoded
    exact absurd hdecoded (by simp [Except.map])
  · exact ⟨content, incremented, rest, rfl, hrest⟩

theorem untranslatable_succ {i : ℕ} (h : Untranslatable toCode array apos aend i) (hne : i ≠ apos) :
    Untranslatable toCode array (apos + 1) aend i := ⟨Nat.lt_of_le_of_ne h.1 hne.symm, h.2⟩

/-- The variant for CRLF returns only where the octet after each CR has a translation. -/
theorem followed_of_unibyteToString (hend : aend ≤ array.length)
    (hsegment : segment array apos aend = octets)
    (h : unibyteToString toCode .crlf onError array aend apos = .ok decoded) :
    Followed toCode octets ∧ ∀ i, Untranslatable toCode array apos aend i → ∃ value,
      onError i = .ok value := by
  induction hn : octets.length using Nat.strong_induction_on generalizing octets apos decoded with
  | _ n ih =>
    rcases octets with _ | ⟨octet, rest⟩
    · refine ⟨isChain_nil, fun i hi => ?_⟩
      exact absurd (hi.1.trans_lt hi.2.1) (le_of_segment_eq_nil hend hsegment).not_gt
    obtain ⟨hlt, href, hrest⟩ := segment_eq_cons hend hsegment 0
    obtain ⟨content, incremented, after, hcontent, hafter⟩ := turn_of_unibyteToString hlt h
    rw [stringContent, arrayRef, href] at hcontent
    have hshorter : rest.length < n := by
      rw [← hn]
      exact Nat.lt_succ_self _
    rcases hcode : toCode octet with _ | code
    · rw [hcode] at hcontent
      dsimp only at hcontent
      rcases hvalue : onError apos with e | value
      · rw [hvalue] at hcontent
        exact absurd hcontent (by simp [Except.map])
      rw [hvalue] at hcontent
      obtain ⟨-, rfl⟩ := Prod.mk.inj (Except.ok.inj hcontent)
      obtain ⟨hfollowed, hvalues⟩ := ih rest.length hshorter hrest hafter rfl
      refine ⟨hfollowed.cons fun next _ hcr => absurd (hcode.symm.trans hcr) (by simp),
        fun i hi => ?_⟩
      by_cases hne : i = apos
      · exact ⟨value, hne ▸ hvalue⟩
      · exact hvalues i (untranslatable_succ hi hne)
    · rw [hcode] at hcontent
      dsimp only at hcontent
      have hnot : ¬ Untranslatable toCode array apos aend apos := fun hi =>
        absurd (((congrArg toCode href).symm.trans hi.2.2).symm.trans hcode) (by simp)
      by_cases hcr : code = 13
      · subst hcr
        rw [if_pos rfl] at hcontent
        rcases rest with _ | ⟨next, rest⟩
        · refine ⟨isChain_singleton octet, fun i hi => ?_⟩
          have hone := eq_succ_of_segment_eq_singleton hend hsegment
          exact absurd ((show i = apos by have := hi.1; have := hi.2.1; omega) ▸ hi) hnot
        obtain ⟨hlt', href', hrest'⟩ := segment_eq_cons hend hrest 0
        rw [if_neg (by omega), arrayRef, href'] at hcontent
        rcases hnext : toCode next with _ | nextCode
        · rw [hnext] at hcontent
          exact absurd hcontent (by simp)
        rw [hnext] at hcontent
        dsimp only at hcontent
        have hrel : toCode octet = some 13 → toCode next ≠ none := fun _ hnone =>
          absurd (hnext.symm.trans hnone) (by simp)
        by_cases hlf : nextCode = 10
        · rw [if_pos hlf] at hcontent
          obtain ⟨-, rfl⟩ := Prod.mk.inj (Except.ok.inj hcontent)
          obtain ⟨hfollowed, hvalues⟩ :=
            ih rest.length (by rw [← hn, length_cons, length_cons]; omega)
            hrest' hafter rfl
          refine ⟨(hfollowed.cons fun _ _ hcr => ?_).cons_cons hrel, fun i hi => ?_⟩
          · exact absurd (hnext.symm.trans hcr) (by simp [hlf])
          have hi' := untranslatable_succ hi fun heq => hnot (heq ▸ hi)
          refine hvalues i (untranslatable_succ hi' fun heq => ?_)
          have hnone := hi'.2.2
          rw [heq, arrayRef, href', hnext] at hnone
          exact absurd hnone (by simp)
        · rw [if_neg hlf] at hcontent
          obtain ⟨-, rfl⟩ := Prod.mk.inj (Except.ok.inj hcontent)
          obtain ⟨hfollowed, hvalues⟩ := ih (next :: rest).length hshorter hrest hafter rfl
          exact ⟨hfollowed.cons_cons hrel, fun i hi =>
            hvalues i (untranslatable_succ hi fun heq => hnot (heq ▸ hi))⟩
      · rw [if_neg hcr] at hcontent
        obtain ⟨-, rfl⟩ := Prod.mk.inj (Except.ok.inj hcontent)
        obtain ⟨hfollowed, hvalues⟩ := ih rest.length hshorter hrest hafter rfl
        refine ⟨hfollowed.cons fun next _ hcr' => absurd (hcode.symm.trans hcr') (by simp [hcr]),
          fun i hi => ?_⟩
        exact hvalues i (untranslatable_succ hi fun heq => hnot (heq ▸ hi))

/-! ## Replacements -/

variable (toCode newline)

/-- The text of a replacement, the pairs among its own octets turned as the variant does. -/
def Replacement.text : Replacement → List ℕ
  | .character code => [code]
  | .string codes => codes
  | .octets array useValue => turned newline (pieces toCode (fun i => (useValue i).text) 0 array)

/-- The errors that a replacement signals, for those of its own octets without a translation. -/
def Replacement.errors : Replacement → List DecodingError
  | .character _ => []
  | .string _ => []
  | .octets array useValue =>
    Unibyte.errors toCode (fun i => ⟨newline, array, i, i + 1, i⟩ :: (useValue i).errors) 0 array

/-- Among the octets of a replacement, too, the one after each CR has a translation. -/
def Replacement.Followed : Replacement → Prop
  | .character _ => True
  | .string _ => True
  | .octets array useValue =>
    Unibyte.Followed toCode array ∧ ∀ i, Untranslatable toCode array 0 array.length i →
      (useValue i).Followed

/-- What `decoding-error` returns and signals at an octet. -/
def decodedError (array : List Octet) (replacement : Option Replacement)
    (useValue : ℕ → Replacement) (i : ℕ) : Decoded :=
  match replacement with
  | some replacement => ⟨replacement.text toCode newline, replacement.errors toCode newline⟩
  | none =>
    ⟨(useValue i).text toCode newline, ⟨newline, array, i, i + 1, i⟩ ::
      (useValue i).errors toCode newline⟩

variable {toCode newline}

theorem decodingReplacementStringify_ok (replacement : Replacement)
    (h : newline = .crlf → replacement.Followed toCode) :
    decodingReplacementStringify toCode newline replacement =
      .ok ⟨replacement.text toCode newline, replacement.errors toCode newline⟩ := by
  induction replacement with
  | character code => rfl
  | string codes => rfl
  | octets octets useValue ih =>
    refine unibyteToString_ok le_rfl
      (fun i => ⟨(useValue i).text toCode newline, ⟨newline, octets, i, i + 1, i⟩ ::
        (useValue i).errors toCode newline⟩)
      segment_self (fun i hi => ?_) fun hcrlf => (h hcrlf).1
    rw [ih i fun hcrlf => (h hcrlf).2 i hi]
    rfl

theorem followed_of_decodingReplacementStringify (replacement : Replacement)
    (h : decodingReplacementStringify toCode .crlf replacement = .ok decoded) :
    replacement.Followed toCode := by
  induction replacement generalizing decoded with
  | character code => trivial
  | string codes => trivial
  | octets octets useValue ih =>
    obtain ⟨hfollowed, hvalues⟩ := followed_of_unibyteToString le_rfl segment_self h
    refine ⟨hfollowed, fun i hi => ?_⟩
    obtain ⟨value, hvalue⟩ := hvalues i hi
    rcases hstring : decodingReplacementStringify toCode .crlf (useValue i) with e | decoded
    · rw [hstring] at hvalue
      exact absurd hvalue (by simp [Except.map])
    · exact ih i hstring

variable (toCode) in
/-- A decoding of whole octets: the pieces, with the pairs of CR and LF turned as the variant does,
and the errors. -/
def expected (newline : Newline) (array : List Octet) (astart aend : ℕ)
    (replacement : Option Replacement) (useValue : ℕ → Replacement) : Decoded :=
  ⟨turned newline (pieces toCode (fun i =>
    (decodedError toCode newline array replacement useValue i).string) astart
      (segment array astart aend)),
    errors toCode (fun i =>
      (decodedError toCode newline array replacement useValue i).signalled) astart
      (segment array astart aend)⟩

variable (toCode) in
/-- The octet after each CR has a translation, in the range and in the replacements that are used.
-/
def AllFollowed (array : List Octet) (astart aend : ℕ) (replacement : Option Replacement)
    (useValue : ℕ → Replacement) : Prop :=
  Followed toCode (segment array astart aend) ∧
    ∀ i, Untranslatable toCode array astart aend i → (replacement.getD (useValue i)).Followed toCode

theorem octetsToString_ok
    (hend : aend ≤ array.length)
    (h : newline = .crlf → AllFollowed toCode array astart aend replacement useValue) :
    octetsToString toCode newline array astart aend replacement useValue =
      .ok (expected toCode newline array astart aend replacement useValue) := by
  refine unibyteToString_ok hend (decodedError toCode newline array replacement useValue) rfl (fun i hi => ?_)
    fun hcrlf => (h hcrlf).1
  cases replacement with
  | some replacement => exact decodingReplacementStringify_ok replacement fun hcrlf => (h hcrlf).2 i hi
  | none =>
    rw [decodingError, decodingReplacementStringify_ok (useValue i) fun hcrlf => (h hcrlf).2 i hi]
    rfl

theorem allFollowed_of_octetsToString
    (hend : aend ≤ array.length)
    (h : octetsToString toCode .crlf array astart aend replacement useValue = .ok decoded) :
    AllFollowed toCode array astart aend replacement useValue := by
  obtain ⟨hfollowed, hvalues⟩ := followed_of_unibyteToString hend rfl h
  refine ⟨hfollowed, fun i hi => ?_⟩
  obtain ⟨value, hvalue⟩ := hvalues i hi
  cases replacement with
  | some replacement => exact followed_of_decodingReplacementStringify replacement hvalue
  | none =>
    rcases hstring : decodingReplacementStringify toCode .crlf (useValue i) with e | decoded
    · rw [decodingError, hstring] at hvalue
      exact absurd hvalue (by simp [Except.map])
    · exact followed_of_decodingReplacementStringify _ hstring

/-- The plain decoder returns the pieces one after the other; the decoder for CRLF returns them with
each pair of a CR and a LF octet turned into a newline, and signals an error for each octet without
a translation, if and only if the octet after each CR has a translation. -/
theorem crlf_decoding_iff (toCode : Octet → Option ℕ) {array : List Octet} (astart : ℕ) {aend : ℕ}
    (hend : aend ≤ array.length) (replacement : Option Replacement) (useValue : ℕ → Replacement) :
    octetsToString toCode .lf array astart aend replacement useValue =
        .ok (expected toCode .lf array astart aend replacement useValue) ∧
      (octetsToString toCode .crlf array astart aend replacement useValue =
          .ok (expected toCode .crlf array astart aend replacement useValue) ↔
        AllFollowed toCode array astart aend replacement useValue) :=
  ⟨octetsToString_ok hend (by simp), allFollowed_of_octetsToString hend,
    fun h => octetsToString_ok hend fun _ => h⟩

/-- The octets 65, 13, 10 of the whole array, where each octet is its own code. -/
theorem crlf_decoding_pair :
    octetsToString (fun octet => some octet) .lf [65, 13, 10] 0 3 none (fun _ => .string []) =
        .ok (expected (fun octet => some octet) .lf [65, 13, 10] 0 3 none fun _ => .string []) ∧
      (octetsToString (fun octet => some octet) .crlf [65, 13, 10] 0 3 none (fun _ => .string []) =
          .ok (expected (fun octet => some octet) .crlf [65, 13, 10] 0 3 none fun _ => .string []) ↔
        AllFollowed (fun octet => some octet) [65, 13, 10] 0 3 none fun _ => .string []) :=
  crlf_decoding_iff (fun octet => some octet) 0 (by decide) none fun _ => .string []

/-- A CR before the octet 165, which has no translation: the plain decoder returns CR and the
replacement. -/
theorem crlf_decoding_untranslatable :
    octetsToString (fun octet => if octet = 165 then none else some octet) .lf [13,
      165] 0 2 (some (.character 63))
        (fun _ => .string []) = .ok ⟨[13, 63], []⟩ ∧
      octetsToString (fun octet => if octet = 165 then none else some octet) .crlf [13,
        165] 0 2 (some (.character 63)) (fun _ => .string []) = .error .notANumber := by
  decide +kernel

end Decoding

end Sbcl.Unibyte
