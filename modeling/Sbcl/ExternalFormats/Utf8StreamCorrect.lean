import Sbcl.ExternalFormats.Utf8Correct
import Sbcl.ExternalFormats.Utf8Stream

/-!
# UTF-8 streams: where they agree with the decoder of octet vectors

* `utf8FormatTurn_eq` : the external format's turn is that of `utf8-char-loop`;
* `TurnChar` : the octets that a turn takes for a character, with leads above those of UTF-8 among
  them;
* `Agree`, `utf8_decoders_agree_iff` : the two decoders agree unless such a lead is reached.
-/

namespace Sbcl.Utf8

open List Option
open ByteSpec (dpb dpb_eq)

/-! ## Turns -/

section Turn
variable {sap : List Octet} {head tail : ℕ} {l : List Octet}

theorem utf8FormatTurn_eq (hlt : head < tail) :
    utf8FormatTurn sap head tail = utf8CharLoopTurn sap head tail := by
  have hsize : ∀ n, n > tail - head ↔ head + n > tail := fun n => by omega
  unfold utf8FormatTurn utf8CharLoopTurn
  rw [if_neg (by omega)]
  cases sapRef8 sap tail head with
  | none => rfl
  | some byte =>
    rw [bind_eq_bind, bind_eq_bind, bind_some, bind_some]
    unfold sizeForm
    by_cases h1 : byte < 128
    · rw [if_pos h1, if_pos h1]
      dsimp only
      rw [if_neg (by omega)]
      rfl
    rw [if_neg h1, if_neg h1]
    by_cases h2 : byte < 194
    · rw [if_pos h2, if_pos h2]
    rw [if_neg h2, if_neg h2]
    by_cases h3 : byte < 224
    · rw [if_pos h3, if_pos h3]
      simp only [hsize, Nat.add_sub_cancel_left]
      split
      · rfl
      unfold characterForm
      cases sapRef8 sap tail (head + 1) with
      | none => rfl
      | some byte2 =>
        simp only [bind_eq_bind, bind_some]
        split <;> rfl
    · rw [if_neg h3, if_neg h3]
      by_cases h4 : byte < 240
      · rw [if_pos h4, if_pos h4]
        simp only [hsize, Nat.add_sub_cancel_left]
        split
        · rfl
        unfold characterForm
        cases sapRef8 sap tail (head + 1) with
        | none => rfl
        | some byte2 =>
          cases sapRef8 sap tail (head + 2) with
          | none => rfl
          | some byte3 =>
            simp only [bind_eq_bind, bind_some]
            split <;> rfl
      · rw [if_neg h4, if_neg h4]
        simp only [hsize, Nat.add_sub_cancel_left]
        split
        · rfl
        unfold characterForm
        cases sapRef8 sap tail (head + 1) with
        | none => rfl
        | some byte2 =>
          cases sapRef8 sap tail (head + 2) with
          | none => rfl
          | some byte3 =>
            cases sapRef8 sap tail (head + 3) with
            | none => rfl
            | some byte4 =>
              simp only [bind_eq_bind, bind_some]
              split <;> rfl

theorem sapRef8_left (h : Left sap head tail l) (x : ℕ) :
    sapRef8 sap tail (head + x) = l[x]?.map Fin.val := by
  rw [sapRef8, h.ref]

/-- The octets that a turn takes for a character. -/
def TurnChar : List Octet → Prop
  | [a] => a.val < 0x80
  | [a, b] => 0xc2 ≤ a.val ∧ a.val < 0xe0 ∧ Tail b
  | [a, b, c] => 0xe0 ≤ a.val ∧ a.val < 0xf0 ∧ Second a b ∧ Tail c
  | [a, b, c, d] => 0xf0 ≤ a.val ∧ Second a b ∧ Tail c ∧ Tail d
  | _ => False

/-- A lead that UTF-8 does not have, and three octets that could follow one. -/
def Stray : List Octet → Prop
  | [a, b, c, d] => 0xf5 ≤ a.val ∧ Tail b ∧ Tail c ∧ Tail d
  | _ => False

theorem turnChar_iff (o : List Octet) : TurnChar o ↔ IsChar o ∨ Stray o := by
  match o with
  | [] => simp [TurnChar, IsChar, Stray]
  | [a] => simp [TurnChar, IsChar, Stray]
  | [a, b] => simp [TurnChar, IsChar, Stray]
  | [a, b, c] => simp [TurnChar, IsChar, Stray]
  | [a, b, c, d] =>
    unfold TurnChar IsChar Stray Second Tail
    omega
  | _ :: _ :: _ :: _ :: _ :: _ => simp [TurnChar, IsChar, Stray]

theorem utf8CharLoopTurn_char {o rest : List Octet} (h : Left sap head tail (o ++ rest))
    (ho : TurnChar o) : utf8CharLoopTurn sap head tail = some (.char (value o) o.length) := by
  have hget := sapRef8_left h
  have hlen := h.length
  rw [length_append] at hlen
  have hbyte := hget 0
  rw [Nat.add_zero] at hbyte
  unfold utf8CharLoopTurn
  match o, ho with
  | [a], ho =>
    have ha : a.val < 128 := ho
    rw [hbyte]
    exact if_pos ha
  | [a, b], ho =>
    obtain ⟨h1, h2, h3, h4⟩ := ho
    simp only [length_cons, length_nil] at hlen
    have hdpb : dpb a.val 5 6 b.val = value [a, b] := by
      rw [dpb_eq (by omega), value_two]
      omega
    rw [hbyte, hget 1]
    simp only [cons_append, nil_append, getElem?_cons_zero, getElem?_cons_succ, map_some,
      bind_eq_bind, bind_some, Nat.add_sub_cancel_left, hdpb]
    rw [if_neg (by omega), if_neg (by omega), if_pos (by omega), if_neg (by omega),
      if_neg (by omega)]
    rfl
  | [a, b, c], ho =>
    obtain ⟨h1, h2, ⟨⟨h3, h4⟩, h5, h6, -⟩, h7, h8⟩ := ho
    simp only [length_cons, length_nil] at hlen
    have hdpb : dpb a.val 4 12 (dpb b.val 6 6 c.val) = value [a, b, c] := by
      have hc : dpb b.val 6 6 c.val = c.val % 64 + b.val % 64 * 64 := dpb_eq (by omega)
      rw [hc, dpb_eq (by omega), value_three]
      omega
    rw [hbyte, hget 1, hget 2]
    simp only [cons_append, nil_append, getElem?_cons_zero, getElem?_cons_succ, map_some,
      bind_eq_bind, bind_some, Nat.add_sub_cancel_left, hdpb]
    rw [if_neg (by omega), if_neg (by omega), if_neg (by omega), if_pos (by omega),
      if_neg (by omega), if_neg (by omega)]
    rfl
  | [a, b, c, d], ho =>
    obtain ⟨h1, ⟨⟨h3, h4⟩, -, -, h5, h6⟩, ⟨h7, h8⟩, h9, h10⟩ := ho
    simp only [length_cons, length_nil] at hlen
    have hdpb : dpb a.val 3 18 (dpb b.val 6 12 (dpb c.val 6 6 d.val)) = value [a, b, c, d] := by
      have hd : dpb c.val 6 6 d.val = d.val % 64 + c.val % 64 * 64 := dpb_eq (by omega)
      have hc : dpb b.val 6 12 (dpb c.val 6 6 d.val) = d.val % 64 + c.val % 64 * 64 +
          b.val % 64 * 4096 := by
        rw [hd, dpb_eq (by omega)]
        omega
      rw [hc, dpb_eq (by omega), value_four]
      omega
    rw [hbyte, hget 1, hget 2, hget 3]
    simp only [cons_append, nil_append, getElem?_cons_zero, getElem?_cons_succ, map_some,
      bind_eq_bind, bind_some, Nat.add_sub_cancel_left, hdpb]
    rw [if_neg (by omega), if_neg (by omega), if_neg (by omega), if_neg (by omega),
      if_neg (by omega), if_neg (by omega)]
    rfl
  | [], ho => exact ho.elim
  | _ :: _ :: _ :: _ :: _ :: _, ho => exact ho.elim

/-- How a turn refuses the octets that are left. -/
def Refused (turn : Option Turn) : Prop :=
  turn = some .incomplete ∨ ∃ reason, turn = some (.decodeBreak reason)

theorem utf8CharLoopTurn_refused (h : Left sap head tail l) (hl : l ≠ [])
    (hno : ∀ o rest, TurnChar o → l ≠ o ++ rest) : Refused (utf8CharLoopTurn sap head tail) := by
  have hget := sapRef8_left h
  have hlen := h.length
  have hbyte := hget 0
  rw [Nat.add_zero] at hbyte
  unfold utf8CharLoopTurn
  match l, hl with
  | a :: rest, _ =>
    rw [hbyte]
    simp only [getElem?_cons_zero, map_some, bind_eq_bind, bind_some]
    rw [length_cons] at hlen
    by_cases h1 : a.val < 128
    · exact absurd rfl (hno [a] rest h1)
    rw [if_neg h1]
    by_cases h2 : a.val < 194
    · rw [if_pos h2]
      exact .inr ⟨_, rfl⟩
    rw [if_neg h2]
    by_cases h3 : a.val < 224
    · rw [if_pos h3]
      match rest with
      | [] =>
        rw [length_nil] at hlen
        exact .inl (if_pos (by omega))
      | b :: rest =>
        rw [length_cons] at hlen
        rw [if_neg (by omega), hget 1]
        refine .inr ⟨2, if_pos fun hb => ?_⟩
        exact hno [a, b] rest ⟨by omega, h3, by unfold Tail; omega⟩ rfl
    · rw [if_neg h3]
      by_cases h4 : a.val < 240
      · rw [if_pos h4]
        match rest with
        | [] =>
          rw [length_nil] at hlen
          exact .inl (if_pos (by omega))
        | [b] =>
          rw [length_singleton] at hlen
          exact .inl (if_pos (by omega))
        | b :: c :: rest =>
          rw [length_cons, length_cons] at hlen
          rw [if_neg (by omega), hget 1, hget 2]
          refine .inr ⟨3, if_pos fun hb => ?_⟩
          exact hno [a, b, c] rest ⟨by omega,
            h4, by unfold Second Tail; omega, by unfold Tail; omega⟩ rfl
      · rw [if_neg h4]
        match rest with
        | [] =>
          rw [length_nil] at hlen
          exact .inl (if_pos (by omega))
        | [b] =>
          rw [length_singleton] at hlen
          exact .inl (if_pos (by omega))
        | [b, c] =>
          rw [length_cons, length_singleton] at hlen
          exact .inl (if_pos (by omega))
        | b :: c :: d :: rest =>
          rw [length_cons, length_cons, length_cons] at hlen
          rw [if_neg (by omega), hget 1, hget 2, hget 3]
          refine .inr ⟨4, if_pos fun hb => ?_⟩
          exact hno [a, b, c, d] rest
            ⟨by omega, by unfold Second Tail; omega, by unfold Tail; omega, by unfold Tail; omega⟩
            rfl

end Turn

/-! ## Runs -/

section Run
variable {octets : List Octet} {turn : List Octet → ℕ → ℕ → Option Turn}

/-- The heads that a run over a buffer with all the octets comes to. -/
inductive Reached (turn : List Octet → ℕ → ℕ → Option Turn) (octets : List Octet) : ℕ → Prop
  | start : Reached turn octets 0
  | next {head code size : ℕ} : Reached turn octets head → head < octets.length →
      turn octets head octets.length = some (.char code size) → code < charCodeLimit →
        Reached turn octets (head + size)

/-- The decoders agree: on what is decoded without an error and on its characters, at each head on
the next octets, and no code is too large for `code-char`. -/
structure Agree (turn : List Octet → ℕ → ℕ → Option Turn) (octets : List Octet) : Prop where
  decodes : ∀ (decodingError : ℕ → ℕ → List ℕ) (room : ℕ) (string : List ℕ), octets.length ≤ room →
    (readNCharacters turn octets octets.length room 0 = some ⟨string, octets.length, none⟩ ↔
      utf8ToString .lf decodingError octets 0 octets.length = some ⟨string, []⟩)
  accepts : ∀ head code size, Reached turn octets head → head < octets.length →
    (turn octets head octets.length = some (.char code size) ↔
      bytesPerUtf8Character octets head octets.length false = some (size, none) ∧
        simpleGetUtf8Char octets head octets.length .lf size = some code)
  codes : ∀ head code size, Reached turn octets head → head < octets.length →
    turn octets head octets.length = some (.char code size) → code < charCodeLimit

/-- After well-formed octets comes a lead that UTF-8 does not have, with three secondary octets. -/
def StrayAfter (octets : List Octet) : Prop :=
  ∃ before stray rest, WellFormed before ∧ Stray stray ∧ octets = before ++ stray ++ rest

theorem left_self (octets : List Octet) : Left octets 0 octets.length octets := by
  have h : Left octets 0 octets.length ((octets.take octets.length).drop 0) :=
    left_intro octets (Nat.zero_le _) le_rfl
  rwa [take_length, drop_zero] at h

theorem not_startsChar_of_stray {stray rest : List Octet} (h : Stray stray) :
    ¬ StartsChar (stray ++ rest) := by
  rintro ⟨o, rest', ho, heq⟩
  obtain ⟨a, ha, hs, -⟩ := isChar_lead ho rest'
  match stray, h with
  | [x, b, c, d], h =>
    rw [← heq] at ha
    obtain rfl : x = a := some_inj.1 ha
    rw [validUtf8StarterByteP_eq, if_neg, if_neg, if_neg, if_neg, if_neg] at hs
    · cases hs
    all_goals
      have := h.1
      omega

variable {room head tail : ℕ}

theorem readNCharacters_end (h : tail = head) :
    readNCharacters turn octets tail room head = some ⟨[], head, none⟩ := by
  cases room with
  | zero => rfl
  | succ room => exact if_pos h

theorem readNCharacters_char {code size : ℕ} (hlt : head < tail)
    (hturn : turn octets head tail = some (.char code size)) (hcode : code < charCodeLimit) :
    readNCharacters turn octets tail (room + 1) head =
      (readNCharacters turn octets tail room (head + size)).map fun rest =>
        { rest with string := code :: rest.string } := by
  have hchar : codeChar code = some code := if_pos hcode
  rw [readNCharacters, if_neg (by omega), hturn]
  dsimp only
  rw [hchar]
  cases readNCharacters turn octets tail room (head + size) <;> rfl

theorem readNCharacters_refused (hlt : head < tail) (hturn : Refused (turn octets head tail)) :
    ∃ reason, readNCharacters turn octets tail (room + 1) head = some ⟨[], head, reason⟩ := by
  rw [readNCharacters, if_neg (by omega)]
  obtain h | ⟨reason, h⟩ := hturn
  · exact ⟨none, by rw [h]⟩
  · exact ⟨some reason, by rw [h]⟩

variable {l : List Octet}

theorem utf8CharLoopTurn_cases (h : Left octets head octets.length l) (hl : l ≠ [])
    (hno : ∀ stray rest, Stray stray → l ≠ stray ++ rest) :
    (∃ o rest, IsChar o ∧ l = o ++ rest ∧ utf8CharLoopTurn octets head octets.length =
      some (.char (value o) o.length)) ∨
      ¬ StartsChar l ∧ Refused (utf8CharLoopTurn octets head octets.length) := by
  by_cases hstart : ∃ o rest, TurnChar o ∧ l = o ++ rest
  · obtain ⟨o, rest, ho, rfl⟩ := hstart
    rcases (turnChar_iff o).1 ho with ho' | ho'
    · exact .inl ⟨o, rest, ho', rfl, utf8CharLoopTurn_char h ho⟩
    · exact absurd rfl (hno o rest ho')
  · refine .inr ⟨fun ⟨o, rest, ho, heq⟩ => hstart ⟨o, rest, (turnChar_iff o).2 (.inl ho), heq⟩, ?_⟩
    exact utf8CharLoopTurn_refused h hl fun o rest ho heq => hstart ⟨o, rest, ho, heq⟩

theorem Reached.left (hturn : ∀ head < octets.length, turn octets head octets.length =
      utf8CharLoopTurn octets head octets.length)
    (hno : ¬ StrayAfter octets) (h : Reached turn octets head) :
    ∃ before l, WellFormed before ∧ octets = before ++ l ∧ Left octets head octets.length l := by
  induction h with
  | start => exact ⟨[], octets, ⟨[], by simp, rfl⟩, rfl, left_self octets⟩
  | @next head code size _ hlt hchar _ ih =>
    obtain ⟨before, l, hbefore, hsplit, hleft⟩ := ih
    rw [hturn head hlt] at hchar
    have hl : l ≠ [] := fun h0 => by
      have := hleft.length
      rw [h0, length_nil] at this
      omega
    have hnostray : ∀ stray rest, Stray stray → l ≠ stray ++ rest := fun stray rest hstray heq =>
      hno ⟨before, stray, rest, hbefore, hstray, by rw [hsplit, heq, append_assoc]⟩
    rcases utf8CharLoopTurn_cases hleft hl hnostray with ⟨o, rest, ho, rfl, heq⟩ | ⟨-, hrefused⟩
    · rw [heq, some_inj] at hchar
      obtain ⟨-, rfl⟩ := Turn.char.inj hchar
      have hdrop := hleft.drop (n := o.length) (by simp)
      rw [drop_left] at hdrop
      obtain ⟨chars, hchars, rfl⟩ := hbefore
      refine ⟨(chars ++ [o]).flatten, rest,
        ⟨chars ++ [o], fun c hc => ?_, rfl⟩, by simp [hsplit], hdrop⟩
      rcases mem_append.1 hc with hc | hc
      · exact hchars c hc
      · rw [mem_singleton.1 hc]
        exact ho
    · rw [hchar] at hrefused
      rcases hrefused with hc | ⟨reason, hc⟩ <;> cases hc

variable (hturn : ∀ head < octets.length, turn octets head octets.length =
      utf8CharLoopTurn octets head octets.length)
include hturn

theorem accepts_iff (h : Left octets head octets.length l) (hlt : head < octets.length)
    (hno : ∀ stray rest, Stray stray → l ≠ stray ++ rest) (code size : ℕ) :
    turn octets head octets.length = some (.char code size) ↔
      bytesPerUtf8Character octets head octets.length false = some (size, none) ∧
        simpleGetUtf8Char octets head octets.length .lf size = some code := by
  have hl : l ≠ [] := fun h0 => by
    have := h.length
    rw [h0, length_nil] at this
    omega
  rw [hturn head hlt]
  rcases utf8CharLoopTurn_cases h hl hno with ⟨o, rest, ho, rfl, heq⟩ | ⟨hstart, hrefused⟩
  · have hget := simpleGetUtf8Char_char h ho .lf
    rw [if_neg fun hc => by cases hc.1] at hget
    rw [heq, bytesPerUtf8Character_char h ho fun hc => Bool.false_ne_true hc.1, some_inj, some_inj,
      Turn.char.injEq]
    constructor
    · rintro ⟨rfl, rfl⟩
      exact ⟨rfl, hget⟩
    · rintro ⟨hsize, hcode⟩
      obtain rfl := congrArg Prod.fst hsize
      exact ⟨some_inj.1 (hget.symm.trans hcode), rfl⟩
  · obtain ⟨k, -, -, hbytes, -⟩ := bytesPerUtf8Character_malformed false h hl hstart
    rw [hbytes]
    refine iff_of_false (fun hc => ?_) fun hc => ?_
    · rw [hc] at hrefused
      rcases hrefused with hc | ⟨reason, hc⟩ <;> cases hc
    · cases hc.1

theorem decodes_iff (decodingError : ℕ → ℕ → List ℕ) {string : List ℕ}
    (h : Left octets head octets.length l)
    (hno : ∀ before stray rest, WellFormed before → Stray stray → l ≠ before ++ stray ++ rest)
    (hroom : l.length ≤ room) :
    readNCharacters turn octets octets.length room head = some ⟨string, octets.length, none⟩ ↔
      utf8ToString .lf decodingError octets head octets.length = some ⟨string, []⟩ := by
  induction room generalizing l head string with
  | zero =>
    obtain rfl : l = [] := length_eq_zero_iff.1 (Nat.le_zero.1 hroom)
    have hend : octets.length = head := by
      have := h.length
      have := h.le
      rw [length_nil] at *
      omega
    rw [readNCharacters_end hend, utf8ToString_nil h, ← hend]
    simp
  | succ room ih =>
    by_cases hl : l = []
    · subst hl
      have hend : octets.length = head := by
        have := h.length
        have := h.le
        rw [length_nil] at *
        omega
      rw [readNCharacters_end hend, utf8ToString_nil h, ← hend]
      simp
    · have hlt := h.pos_lt hl
      rcases utf8CharLoopTurn_cases h hl fun stray rest hstray =>
        by simpa using hno [] stray rest ⟨[], by simp, rfl⟩ hstray with ⟨o, rest, ho, rfl,
          heq⟩ | ⟨hstart, hrefused⟩
      · have hpos := length_pos_of_isChar ho
        have hget := simpleGetUtf8Char_char h ho .lf
        rw [if_neg fun hc => by cases hc.1] at hget
        have hdrop := h.drop (n := o.length) (by simp)
        rw [drop_left] at hdrop
        have hnorest : ∀ before stray rest', WellFormed before → Stray stray →
            rest ≠ before ++ stray ++ rest' := by
          rintro before stray rest' ⟨chars, hchars, rfl⟩ hstray rfl
          refine hno (o ++ chars.flatten) stray rest' ⟨o :: chars, fun c hc => ?_,
            rfl⟩ hstray (by simp)
          rcases mem_cons.1 hc with rfl | hc
          · exact ho
          · exact hchars c hc
        have hlen : rest.length ≤ room := by
          rw [length_append] at hroom
          omega
        have hstep (string' : List ℕ) :
            readNCharacters turn octets octets.length room (head + o.length) =
              some ⟨string', octets.length, none⟩ ↔
              utf8ToString .lf decodingError octets (head + o.length) octets.length =
                some ⟨string', []⟩ :=
          ih hdrop hnorest hlen
        obtain ⟨d, hd⟩ := utf8ToString_total .lf decodingError hdrop
        rw [readNCharacters_char hlt ((hturn head hlt).trans heq) (isChar_value ho).1.1,
          utf8ToString_char hlt hpos (bytesPerUtf8Character_char h ho
            fun hc => by simp at hc) hget hd]
        rw [hd] at hstep
        constructor
        · intro hread
          obtain ⟨⟨string', head', reason⟩, hrest, hcons⟩ := map_eq_some_iff.1 hread
          obtain ⟨rfl, rfl, rfl⟩ := Read.mk.inj hcons
          rw [some_inj.1 ((hstep string').1 hrest)]
        · intro hrun
          obtain ⟨rfl, herrors⟩ := Decoded.mk.inj (some_inj.1 hrun)
          rw [(hstep d.string).2 (by rw [← herrors])]
          rfl
      · rw [← hturn head hlt] at hrefused
        obtain ⟨reason, hread⟩ :
          ∃ reason, readNCharacters turn octets octets.length (room + 1) head =
          some ⟨[], head, reason⟩ := readNCharacters_refused hlt hrefused
        obtain ⟨k, h1, h2, hbytes, -⟩ :=
          bytesPerUtf8Character_malformed (Newline.lf = .crlf) h hl hstart
        obtain ⟨d, hd⟩ := utf8ToString_total .lf decodingError (h.drop h2)
        rw [hread, utf8ToString_malformed hlt h1 hbytes hd]
        refine iff_of_false (fun hc => ?_) fun hc => ?_
        · have := congrArg Read.head (some_inj.1 hc)
          dsimp only at this
          omega
        · cases congrArg Decoded.errors (some_inj.1 hc)

end Run

/-! ## Both decoders -/

theorem Reached.chars {octets l : List Octet} {turn : List Octet → ℕ → ℕ → Option Turn}
    (hturn : ∀ head < octets.length, turn octets head octets.length =
      utf8CharLoopTurn octets head octets.length)
    {chars : List (List Octet)} (hchars : ∀ c ∈ chars, IsChar c) {head : ℕ}
    (hreached : Reached turn octets head)
    (h : Left octets head octets.length (chars.flatten ++ l)) :
    ∃ head', Reached turn octets head' ∧ Left octets head' octets.length l := by
  induction chars generalizing head with
  | nil => exact ⟨head, hreached, h⟩
  | cons o chars ih =>
    have ho := hchars o mem_cons_self
    rw [flatten_cons, append_assoc] at h
    have hdrop := h.drop (n := o.length) (by simp)
    rw [drop_left] at hdrop
    have hlt : head < octets.length := h.pos_lt fun h0 => by
      have := length_pos_of_isChar ho
      rw [(append_eq_nil_iff.1 h0).1] at this
      exact absurd this (lt_irrefl 0)
    have hchar := utf8CharLoopTurn_char h ((turnChar_iff o).2 (.inl ho))
    exact ih (fun c hc => hchars c (mem_cons_of_mem _ hc))
      (hreached.next hlt ((hturn head hlt).trans hchar) (isChar_value ho).1.1) hdrop

/-- The octets that the two decoders treat alike: those without a lead above the leads of UTF-8
where a stream would take one. -/
theorem agree_iff {octets : List Octet} {turn : List Octet → ℕ → ℕ → Option Turn}
    (hturn : ∀ head < octets.length, turn octets head octets.length =
      utf8CharLoopTurn octets head octets.length) :
    Agree turn octets ↔ ¬ StrayAfter octets := by
  constructor
  · rintro hagree ⟨before, stray, rest, ⟨chars, hchars, rfl⟩, hstray, hsplit⟩
    have hleft : Left octets 0 octets.length (chars.flatten ++ (stray ++ rest)) := by
      rw [← append_assoc, ← hsplit]
      exact left_self octets
    obtain ⟨head, hreached, hstop⟩ := Reached.chars hturn hchars .start hleft
    have hne : stray ++ rest ≠ [] := fun h0 => by
      rw [(append_eq_nil_iff.1 h0).1] at hstray
      exact hstray
    have hlt := hstop.pos_lt hne
    have hchar := utf8CharLoopTurn_char hstop ((turnChar_iff stray).2 (.inr hstray))
    have hbytes := ((hagree.accepts head _ _ hreached hlt).1 ((hturn head hlt).trans hchar)).1
    obtain ⟨k, -, -, hmalformed, -⟩ :=
      bytesPerUtf8Character_malformed false hstop hne (not_startsChar_of_stray hstray)
    rw [hmalformed] at hbytes
    cases hbytes
  · intro hno
    have hstray : ∀ {before l : List Octet}, WellFormed before → octets = before ++ l →
        ∀ stray rest, Stray stray → l ≠ stray ++ rest := fun hbefore hsplit stray rest hstray heq =>
      hno ⟨_, stray, rest, hbefore, hstray, by rw [hsplit, heq, append_assoc]⟩
    refine ⟨fun decodingError room string hroom => ?_, fun head code size hreached hlt => ?_,
      fun head code size hreached hlt hchar => ?_⟩
    · exact decodes_iff hturn decodingError (left_self octets)
        (fun before stray rest hbefore hs heq => hno ⟨before, stray, rest, hbefore, hs, heq⟩) hroom
    · obtain ⟨before, l, hbefore, hsplit, hleft⟩ := hreached.left hturn hno
      exact accepts_iff hturn hleft hlt (hstray hbefore hsplit) code size
    obtain ⟨before, l, hbefore, hsplit, hleft⟩ := hreached.left hturn hno
    have hl : l ≠ [] := fun h0 => by
      have := hleft.length
      rw [h0, length_nil] at this
      omega
    rw [hturn head hlt] at hchar
    rcases utf8CharLoopTurn_cases hleft hl (hstray hbefore hsplit) with ⟨o, rest, ho, -,
      heq⟩ | ⟨-, hrefused⟩
    · rw [heq, some_inj] at hchar
      rw [← (Turn.char.inj hchar).1]
      exact (isChar_value ho).1.1
    · rw [hchar] at hrefused
      rcases hrefused with hc | ⟨reason, hc⟩ <;> cases hc

/-- The turns of both loops. -/
theorem utf8_decoders_agree_iff (octets : List Octet) :
    (∀ turn ∈ [utf8CharLoopTurn, utf8FormatTurn], Agree turn octets) ↔ ¬ StrayAfter octets := by
  constructor
  · intro h
    exact (agree_iff fun head _ => rfl).1 (h utf8CharLoopTurn (by simp))
  intro hno turn hmem
  simp only [mem_cons, not_mem_nil, or_false] at hmem
  rcases hmem with rfl | rfl
  · exact (agree_iff fun head _ => rfl).2 hno
  · exact (agree_iff fun head hlt => utf8FormatTurn_eq hlt).2 hno

/-- A lead of five octets is taken for one of four: the stream reads a character where the other
decoder reports malformed octets. -/
theorem utf8_decoders_disagree :
    readNCharacters utf8CharLoopTurn [0xf8, 0x80, 0x80, 0x80] 4 4 0 = some ⟨[0], 4, none⟩ ∧
      readNCharacters utf8FormatTurn [0xf8, 0x80, 0x80, 0x80] 4 4 0 = some ⟨[0], 4, none⟩ ∧
      bytesPerUtf8Character [0xf8, 0x80, 0x80, 0x80] 0 4 false = some (1, some 1) ∧
      utf8CharLoopTurn [0xf5, 0x80, 0x80, 0x80] 0 4 = some (.char 0x140000 4) ∧
      ¬ 0x140000 < charCodeLimit ∧
      ¬ ∀ octets, ∀ turn ∈ [utf8CharLoopTurn, utf8FormatTurn], Agree turn octets := by
  refine ⟨by decide, by decide, by decide, by decide, by decide, fun h => ?_⟩
  have hbytes :=
    (((h [0xf8, 0x80, 0x80, 0x80] utf8CharLoopTurn (by simp)).accepts 0 0 4 .start (by decide)).1
    (by decide)).1
  exact absurd hbytes (by decide)

end Sbcl.Utf8
