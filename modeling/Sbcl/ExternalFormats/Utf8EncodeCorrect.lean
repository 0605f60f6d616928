import Sbcl.ExternalFormats.Utf8Correct
import Sbcl.ExternalFormats.Utf8Encode

/-!
# The octets and the positions of encoding errors

* `octetsOr`, `surrogates` : the octets of a character, or those of a replacement; the indices of
  the surrogates;
* `outputLoop_eq` : the loop stores the octets up to the first surrogate;
* `errorLoop_replacing`, `encodeUtf8_replacing` : with a replacement, the octets character by
  character and the padding;
* `errorLoop_signalled` : every error carries the number of octets before the first surrogate;
* `utf8_encoding_iff` : when that is the index of the character.
-/

namespace Sbcl.Utf8

open Segments List Option

variable {octets : List Octet} {rest string : List ℕ} {code errorPosition i : ℕ}

/-! ## Characters -/

def IsSurrogate (code : ℕ) : Prop := 0xd800 ≤ code ∧ code ≤ 0xdfff

instance (code : ℕ) : Decidable (IsSurrogate code) := inferInstanceAs (Decidable (_ ∧ _))

variable (newline : Newline)

theorem outputCode_eq_none : outputCode newline code = none ↔ IsSurrogate code := by
  unfold IsSurrogate
  rcases charLenAsUtf8_cases code with ⟨h, hc⟩ | ⟨h, hc⟩ | ⟨h, hc⟩ | ⟨h, hc⟩
  · rw [outputCode_one h]
    exact iff_of_false (by simp) (by omega)
  · rw [outputCode_two h]
    exact iff_of_false (by simp) (by omega)
  · rw [outputCode_three h]
    split_ifs with hs
    · exact iff_of_true rfl hs
    · exact iff_of_false (by simp) hs
  · rw [outputCode_four h]
    exact iff_of_false (by simp) (by omega)

/-- How many octets there are room for, of a character. -/
def room (code : ℕ) : ℕ := charLenAsUtf8 code + if newline = .crlf ∧ code = 10 then 1 else 0

theorem length_outputCode (h : outputCode newline code = some octets) :
    octets.length = room newline code := by
  unfold room
  rcases charLenAsUtf8_cases code with ⟨hlen, hc⟩ | ⟨hlen, hc⟩ | ⟨hlen, hc⟩ | ⟨hlen, hc⟩
  · rw [outputCode_one hlen] at h
    rw [hlen, ← Option.some.inj h]
    cases newline with
    | lf => rfl
    | cr => rfl
    | crlf => by_cases h10 : code = 10 <;> simp [asciiOctets, h10]
  · rw [outputCode_two hlen] at h
    rw [hlen, ← Option.some.inj h, if_neg (by omega)]
    rfl
  · rw [outputCode_three hlen] at h
    split_ifs at h
    rw [hlen, ← Option.some.inj h, if_neg (by omega)]
    rfl
  · rw [outputCode_four hlen] at h
    rw [hlen, ← Option.some.inj h, if_neg (by omega)]
    rfl

/-- The octets of a character, or of the replacement for a surrogate. -/
def octetsOr (replacement : List Octet) (code : ℕ) : List Octet :=
  (outputCode newline code).getD replacement

variable {newline}

theorem octetsOr_of_surrogate {replacement : List Octet} (h : IsSurrogate code) :
    octetsOr newline replacement code = replacement := by
  rw [octetsOr, (outputCode_eq_none newline).2 h]
  rfl

theorem outputCode_octetsOr (h : ¬ IsSurrogate code) (replacement : List Octet) :
    outputCode newline code = some (octetsOr newline replacement code) := by
  obtain ⟨octets, hoctets⟩ :=
    ne_none_iff_exists'.1 fun hnone => h ((outputCode_eq_none newline).1 hnone)
  rw [octetsOr, hoctets]
  rfl

theorem sum_room (codes : List ℕ) :
    (codes.map (room newline)).sum =
      (codes.map charLenAsUtf8).sum + if newline = .crlf then newlineCount codes else 0 := by
  induction codes with
  | nil => simp [newlineCount]
  | cons code codes ih =>
    rw [map_cons, sum_cons, ih, map_cons, sum_cons, newlineCount, newlineCount, countP_cons, room]
    by_cases hcrlf : newline = .crlf
    · by_cases h10 : code = 10 <;> simp [hcrlf, h10] <;> omega
    · simp [hcrlf]

variable {codes : List ℕ}

variable (newline) in
theorem length_flatMap_octetsOr (h : ∀ c ∈ codes, ¬ IsSurrogate c) (replacement : List Octet) :
    (codes.flatMap (octetsOr newline replacement)).length = (codes.map (room newline)).sum := by
  rw [length_flatMap]
  exact congrArg List.sum (map_congr_left fun c hc =>
    length_outputCode newline (outputCode_octetsOr (h c hc) replacement))

theorem exists_scalars (codes : List ℕ) : ∃ scalars rest, codes = scalars ++ rest ∧
    (∀ c ∈ scalars, ¬ IsSurrogate c) ∧ ∀ c ∈ rest.head?, IsSurrogate c := by
  refine ⟨codes.takeWhile fun c => ¬ IsSurrogate c, codes.dropWhile fun c => ¬ IsSurrogate c,
    takeWhile_append_dropWhile.symm, fun c hc => ?_, fun c hc => ?_⟩
  · exact of_decide_eq_true (all_eq_true.1 all_takeWhile c hc)
  · have hnot := head?_dropWhile_not (fun c => decide (¬ IsSurrogate c)) codes
    rw [mem_def.1 hc] at hnot
    exact not_not.1 (of_decide_eq_false hnot)

variable {send : ℕ} {scalars : List ℕ}

variable (newline) in
theorem outputLoop_eq (hsend : send ≤ string.length)
    (hsegment : segment string i send = scalars ++ rest) (hscalars : ∀ c ∈ scalars, ¬ IsSurrogate c)
    (hrest : ∀ c ∈ rest.head?, IsSurrogate c) (replacement octets : List Octet) :
    outputLoop newline string send octets i =
      (octets ++ scalars.flatMap (octetsOr newline replacement),
        if rest = [] then none else some (i + scalars.length)) := by
  induction scalars generalizing i octets with
  | nil =>
    rcases rest with _ | ⟨code, rest⟩
    · rw [outputLoop, if_pos (le_of_segment_eq_nil hsend hsegment), if_pos rfl,
        flatMap_nil, append_nil]
    obtain ⟨hlt, hcode, -⟩ := segment_eq_cons hsend hsegment 0
    rw [outputLoop, if_neg (not_le.2 hlt), hcode, (outputCode_eq_none newline).2 (hrest code rfl),
      flatMap_nil, append_nil, if_neg (cons_ne_nil _ _), length_nil, Nat.add_zero]
    rfl
  | cons code scalars ih =>
    obtain ⟨hlt, hcode, hafter⟩ := segment_eq_cons hsend hsegment 0
    rw [outputLoop, if_neg (not_le.2 hlt), hcode,
      outputCode_octetsOr (hscalars code mem_cons_self) replacement]
    dsimp only
    rw [ih hafter (fun c hc => hscalars c (mem_cons_of_mem _ hc)), flatMap_cons, append_assoc,
      length_cons, Nat.add_assoc, Nat.add_comm 1]

/-! ## With a replacement -/

theorem errorLoop_replacing (hsend : send ≤ string.length) (nullPadding : Bool)
    (replacement : List Octet) (useValue : ℕ → Option (List Octet)) (index : ℕ)
    (newArray : List Octet) (count : ℕ) (hlt : errorPosition < send) :
    errorLoop newline string send nullPadding (some replacement) useValue index newArray
      count errorPosition = ⟨some (newArray ++ replacement ++
        (segment string (errorPosition + 1) send).flatMap (octetsOr newline replacement) ++
        List.replicate nullPadding.toNat 0), []⟩ := by
  induction hn :
    send - errorPosition using Nat.strong_induction_on generalizing newArray count
    errorPosition with
  | _ n ih =>
    obtain ⟨scalars, rest, hparts, hscalars, hrest⟩ :=
      exists_scalars (segment string (errorPosition + 1) send)
    have hloop :=
      outputLoop_eq newline hsend hparts hscalars hrest replacement (newArray ++ replacement)
    rw [errorLoop, encodingError]
    dsimp only
    split
    · rename_i last hlast
      rw [hloop] at hlast
      obtain ⟨rfl, hnone⟩ := Prod.mk.inj hlast
      have hnil : rest = [] := by
        by_contra hne
        rw [if_neg hne] at hnone
        exact absurd hnone (by simp)
      rw [hparts, hnil, append_nil]
      cases nullPadding <;> simp
    · rename_i last position hlast
      rw [hloop] at hlast
      obtain ⟨rfl, hsome⟩ := Prod.mk.inj hlast
      rcases rest with _ | ⟨code, rest⟩
      · exact absurd hsome (by simp)
      rw [if_neg (cons_ne_nil _ _)] at hsome
      obtain rfl := Option.some.inj hsome
      obtain ⟨hlt', -, hafter⟩ := segment_eq_cons hsend (segment_append hsend hparts) 0
      rw [ih (send - (errorPosition + 1 + scalars.length)) (by omega) _ _ hlt' rfl]
      rw [hafter, hparts, flatMap_append, flatMap_cons, octetsOr_of_surrogate (hrest code rfl),
        append_nil]
      simp only [append_assoc]

theorem length_scalars_le (hparts : codes = scalars ++ rest)
    (hscalars : ∀ c ∈ scalars, ¬ IsSurrogate c) (replacement : List Octet) :
    (scalars.flatMap (octetsOr newline replacement)).length ≤
      (codes.map charLenAsUtf8).sum + if newline = .crlf then newlineCount codes else 0 := by
  rw [length_flatMap_octetsOr newline hscalars, ← sum_room, hparts, map_append, sum_append]
  exact Nat.le_add_right _ _

theorem take_fillArray {size : ℕ} (h : octets.length ≤ size) :
    ∃ array, fillArray size octets = some array ∧ array.take octets.length = octets := by
  rw [fillArray, if_pos h]
  exact ⟨_, rfl, take_left⟩

variable {sstart : ℕ}

theorem encodeUtf8_scalars {string : SimpleString} (hsend : send ≤ string.codes.length)
    (hscalars : ∀ c ∈ segment string.codes sstart send, ¬ IsSurrogate c) (nullPadding : Bool)
    (replacement : Option (List Octet)) (useValue : ℕ → Option (List Octet)) (octets : List Octet) :
    encodeUtf8 newline string sstart send nullPadding replacement useValue =
      some ⟨some ((segment string.codes sstart send).flatMap (octetsOr newline octets) ++
        List.replicate nullPadding.toNat 0), []⟩ := by
  have hlength := length_segment sstart hsend
  have hroom := length_flatMap_octetsOr newline hscalars octets
  rw [sum_room] at hroom
  have hascii : ((segment string.codes sstart send).map charLenAsUtf8).sum = send - sstart →
      (segment string.codes sstart send).flatMap (asciiOctets newline) =
        (segment string.codes sstart send).flatMap (octetsOr newline octets) := by
    intro hsum
    refine flatMap_congr fun c hc => ?_
    rw [octetsOr, outputCode_one (ascii_of_sum (hsum.trans hlength.symm) c hc)]
    rfl
  unfold encodeUtf8
  cases string with
  | base codes =>
    have hone : ∀ c ∈ segment (SimpleString.base codes).codes sstart send, charLenAsUtf8 c = 1 := by
      intro c hc
      obtain ⟨code, -, rfl⟩ := mem_map.1 (mem_of_mem_drop (mem_of_mem_take hc))
      exact if_pos code.isLt
    have hsum : ((segment (SimpleString.base codes).codes sstart send).map charLenAsUtf8).sum =
        send - sstart := by
      rw [map_congr_left hone, ← hlength]
      simp
    dsimp only
    rw [hascii hsum, fillArray_eq (n := nullPadding.toNat) (by rw [hroom, hsum])]
    rfl
  | character codes =>
    dsimp only
    by_cases hsum :
      ((segment (SimpleString.character codes).codes sstart send).map charLenAsUtf8).sum =
      send - sstart
    · rw [if_pos hsum, hascii hsum, fillArray_eq (n := nullPadding.toNat) (by omega)]
      rfl
    have hloop := outputLoop_eq newline hsend (append_nil _).symm hscalars (by simp) octets []
    rw [if_neg hsum, show outputLoop newline codes send [] sstart = _ from hloop,
      if_pos rfl, nil_append]
    dsimp only
    rw [fillArray_eq (n := nullPadding.toNat) (by omega)]
    rfl

theorem encodeUtf8_surrogate {string : SimpleString} (hsend : send ≤ string.codes.length)
    (hparts : segment string.codes sstart send = scalars ++ code :: rest)
    (hscalars : ∀ c ∈ scalars, ¬ IsSurrogate c) (hcode : IsSurrogate code) (nullPadding : Bool)
    (replacement : Option (List Octet)) (useValue : ℕ → Option (List Octet)) (octets : List Octet) :
    encodeUtf8 newline string sstart send nullPadding replacement useValue =
      some (errorLoop newline string.codes send nullPadding replacement useValue
        (scalars.flatMap (octetsOr newline octets)).length
          (scalars.flatMap (octetsOr newline octets)) 0
        (sstart + scalars.length)) := by
  have hmem : code ∈ segment string.codes sstart send := by
    rw [hparts]
    simp
  unfold encodeUtf8
  cases string with
  | base codes =>
    -- a base string has no surrogates
    obtain ⟨char, -, rfl⟩ := mem_map.1 (mem_of_mem_drop (mem_of_mem_take hmem))
    have := hcode.1
    omega
  | character codes =>
    have hsum : ((segment (SimpleString.character codes).codes sstart send).map charLenAsUtf8).sum ≠
        send - sstart := by
      intro heq
      have hone := ascii_of_sum (heq.trans (length_segment sstart hsend).symm) code hmem
      rcases charLenAsUtf8_cases code with ⟨h, hc⟩ | ⟨h, hc⟩ | ⟨h, hc⟩ | ⟨h, hc⟩
      · have := hcode.1
        omega
      all_goals omega
    have hloop := outputLoop_eq newline hsend hparts hscalars (by simpa using hcode) octets []
    have hle : (scalars.flatMap (octetsOr newline octets)).length ≤ nullPadding.toNat +
        ((segment (SimpleString.character codes).codes sstart send).map charLenAsUtf8).sum +
        if newline = .crlf then newlineCount
          (segment (SimpleString.character codes).codes sstart send) else 0 :=
      (length_scalars_le hparts hscalars octets).trans (by omega)
    obtain ⟨array, harray, htake⟩ := take_fillArray hle
    dsimp only
    rw [if_neg hsum, show outputLoop newline codes send [] sstart = _ from hloop,
      if_neg (cons_ne_nil _ _), nil_append]
    dsimp only
    rw [harray, map_some, htake]
    rfl

theorem encodeUtf8_replacing {string : SimpleString} (hsend : send ≤ string.codes.length)
    (nullPadding : Bool) (replacement : List Octet) (useValue : ℕ → Option (List Octet)) :
    encodeUtf8 newline string sstart send nullPadding (some replacement) useValue =
      some ⟨some ((segment string.codes sstart send).flatMap (octetsOr newline replacement) ++
        List.replicate nullPadding.toNat 0), []⟩ := by
  obtain ⟨scalars, rest, hparts, hscalars, hrest⟩ :=
    exists_scalars (segment string.codes sstart send)
  rcases rest with _ | ⟨code, rest⟩
  · rw [append_nil] at hparts
    exact encodeUtf8_scalars hsend (hparts ▸ hscalars) nullPadding _ useValue replacement
  have hcode := hrest code rfl
  obtain ⟨hlt, -, hafter⟩ := segment_eq_cons hsend (segment_append hsend hparts) 0
  rw [encodeUtf8_surrogate hsend hparts hscalars hcode nullPadding _ useValue replacement,
    errorLoop_replacing hsend nullPadding replacement useValue _ _ _ hlt, hafter,
    hparts, flatMap_append, flatMap_cons, octetsOr_of_surrogate hcode]
  simp only [append_assoc]

/-! ## Without a replacement -/

/-- The indices of the surrogates among characters that begin at an index. -/
def surrogates : ℕ → List ℕ → List ℕ
  | _, [] => []
  | i, code :: rest => if IsSurrogate code then i ::
    surrogates (i + 1) rest else surrogates (i + 1) rest

theorem surrogates_append (hscalars : ∀ c ∈ scalars, ¬ IsSurrogate c) (i : ℕ) (rest : List ℕ) :
    surrogates i (scalars ++ rest) = surrogates (i + scalars.length) rest := by
  induction scalars generalizing i with
  | nil => rfl
  | cons code scalars ih =>
    rw [cons_append, surrogates, if_neg (hscalars code mem_cons_self),
      ih (fun c hc => hscalars c (mem_cons_of_mem _ hc)), length_cons,
      Nat.add_assoc, Nat.add_comm 1]

theorem surrogates_cons (hcode : IsSurrogate code) (i : ℕ) (rest : List ℕ) :
    surrogates i (code :: rest) = i :: surrogates (i + 1) rest := if_pos hcode

theorem le_of_mem_surrogates {i j : ℕ} (h : j ∈ surrogates i codes) : i ≤ j := by
  induction codes generalizing i with
  | nil => exact absurd h not_mem_nil
  | cons code codes ih =>
    rw [surrogates] at h
    split_ifs at h
    · rcases mem_cons.1 h with rfl | h
      · exact le_rfl
      · exact (Nat.le_succ i).trans (ih h)
    · exact (Nat.le_succ i).trans (ih h)

variable (newline) in
/-- From an error on, every error carries the same number; a second one is signalled when
`use-value` is called at the first and there is a further surrogate. -/
theorem errorLoop_signalled (hsend : send ≤ string.length) (nullPadding : Bool)
    (useValue : ℕ → Option (List Octet)) (index : ℕ) (newArray : List Octet) (count : ℕ)
    (hlt : errorPosition < send) :
    ∃ rest, (errorLoop newline string send nullPadding none useValue index newArray count
      errorPosition).signalled =
        ⟨newline, string, index, errorPosition⟩ :: rest ∧
      (∀ e ∈ rest, e.position = index) ∧
      rest.map EncodingError.errorPosition <+: surrogates (errorPosition + 1)
        (segment string (errorPosition + 1) send) ∧
      (rest = [] ↔
        useValue count = none ∨ surrogates (errorPosition + 1)
          (segment string (errorPosition + 1) send) = []) := by
  induction hn :
    send - errorPosition using Nat.strong_induction_on generalizing newArray count
    errorPosition with
  | _ n ih =>
    rw [errorLoop, encodingError]
    dsimp only
    rcases huse : useValue count with _ | octets
    · exact ⟨[], rfl, by simp, nil_prefix, iff_of_true rfl (.inl rfl)⟩
    obtain ⟨scalars, rest, hparts, hscalars, hrest⟩ :=
      exists_scalars (segment string (errorPosition + 1) send)
    have hloop := outputLoop_eq newline hsend hparts hscalars hrest [] (newArray ++ octets)
    dsimp only
    split
    · rename_i last hlast
      rw [hloop] at hlast
      have hnil : rest = [] := by
        by_contra hne
        rw [if_neg hne] at hlast
        exact absurd (congrArg Prod.snd hlast) (by simp)
      refine ⟨[], rfl, by simp, nil_prefix, iff_of_true rfl (.inr ?_)⟩
      rw [hparts, hnil, surrogates_append hscalars]
      rfl
    · rename_i last position hlast
      rw [hloop] at hlast
      rcases rest with _ | ⟨code, rest⟩
      · exact absurd (congrArg Prod.snd hlast) (by simp)
      rw [if_neg (cons_ne_nil _ _)] at hlast
      obtain rfl := Option.some.inj (congrArg Prod.snd hlast)
      obtain ⟨hlt', -, hafter⟩ := segment_eq_cons hsend (segment_append hsend hparts) 0
      have hsurrogates : surrogates (errorPosition + 1) (segment string (errorPosition + 1) send) =
          (errorPosition + 1 + scalars.length) ::
            surrogates (errorPosition + 1 + scalars.length + 1)
            (segment string (errorPosition + 1 + scalars.length + 1) send) := by
        rw [hparts, surrogates_append hscalars, surrogates_cons (hrest code rfl), hafter]
      obtain ⟨more, hmore, hpositions, hinitial, -⟩ :=
        ih (send - (errorPosition + 1 + scalars.length)) (by omega)
        last (count + 1) hlt' rfl
      rw [hmore, hsurrogates]
      refine ⟨⟨newline, string, index, errorPosition + 1 + scalars.length⟩ :: more, rfl, ?_,
        (prefix_cons_inj _).2 hinitial, iff_of_false (cons_ne_nil _ _) (by simp)⟩
      intro e he
      rcases mem_cons.1 he with rfl | he
      · rfl
      · exact hpositions e he

/-- With a replacement the octets are those of each character, or the replacement's for a surrogate,
and the padding. Without one the errors are signalled for the surrogates in their order, and each
carries the index of its character if and only if the first surrogate is at the index that is the
number of the octets before it, and there is no second one that is signalled. -/
theorem utf8_encoding_iff (newline : Newline) {string : SimpleString} (sstart : ℕ) {send : ℕ}
    (hsend : send ≤ string.codes.length) (nullPadding : Bool) (useValue : ℕ → Option (List Octet)) :
    (∀ replacement, encodeUtf8 newline string sstart send nullPadding (some replacement) useValue =
        some ⟨some ((segment string.codes sstart send).flatMap (octetsOr newline replacement) ++
          List.replicate nullPadding.toNat 0), []⟩) ∧
      ∃ encoded, encodeUtf8 newline string sstart send nullPadding none useValue = some encoded ∧
        encoded.signalled.map EncodingError.errorPosition <+: surrogates sstart
          (segment string.codes sstart send) ∧
        ((∀ e ∈ encoded.signalled, e.position = e.errorPosition) ↔
          ∀ first ∈ (surrogates sstart (segment string.codes sstart send)).head?,
            ((segment string.codes sstart first).flatMap (octetsOr newline [])).length = first ∧
              (useValue 0 = none ∨
                (surrogates sstart (segment string.codes sstart send)).tail = [])) := by
  refine ⟨fun replacement => encodeUtf8_replacing hsend nullPadding replacement useValue, ?_⟩
  obtain ⟨scalars, rest, hparts, hscalars, hrest⟩ :=
    exists_scalars (segment string.codes sstart send)
  rcases rest with _ | ⟨code, rest⟩
  · rw [append_nil] at hparts
    have hnone : surrogates sstart (segment string.codes sstart send) = [] := by
      rw [hparts, ← append_nil scalars, surrogates_append hscalars]
      rfl
    refine ⟨_, encodeUtf8_scalars hsend (hparts ▸ hscalars) nullPadding none useValue [],
      nil_prefix, ?_⟩
    rw [hnone]
    exact iff_of_true (by simp) (by simp)
  · have hcode := hrest code rfl
    obtain ⟨hlt, -, hafter⟩ := segment_eq_cons hsend (segment_append hsend hparts) 0
    have hsurrogates : surrogates sstart (segment string.codes sstart send) =
        (sstart + scalars.length) :: surrogates (sstart + scalars.length + 1)
          (segment string.codes (sstart + scalars.length + 1) send) := by
      rw [hparts, surrogates_append hscalars, surrogates_cons hcode, hafter]
    obtain ⟨more, hmore, hpositions, hinitial, hnil⟩ :=
      errorLoop_signalled newline hsend nullPadding useValue
      (scalars.flatMap (octetsOr newline [])).length (scalars.flatMap (octetsOr newline [])) 0 hlt
    refine ⟨_, encodeUtf8_surrogate hsend hparts hscalars hcode nullPadding none useValue [], ?_,
      ?_⟩
    · rw [hmore, hsurrogates]
      exact (prefix_cons_inj _).2 hinitial
    rw [hmore, hsurrogates]
    simp only [head?_cons, mem_some_iff, forall_eq', tail_cons, segment_left hparts, ← hnil,
      forall_mem_cons]
    refine and_congr_right fun hfirst => ⟨fun hall => ?_, fun hempty => by simp [hempty]⟩
    -- a second error would carry the index of the first surrogate
    refine eq_nil_iff_forall_not_mem.2 fun e he => ?_
    have hlater := le_of_mem_surrogates (hinitial.subset (mem_map_of_mem he))
    have heq := hall e he
    rw [hpositions e he, hfirst] at heq
    omega

/-- Behind characters of one octet the position is the index. -/
theorem utf8_encoding_iff_plain :
    ∃ encoded, encodeUtf8 .lf (.character [65, 66, 0xD800]) 0 3 true none (fun _ => none) =
      some encoded ∧ ∀ e ∈ encoded.signalled, e.position = e.errorPosition := by
  obtain ⟨encoded, hencoded, -, hiff⟩ :=
    (utf8_encoding_iff .lf 0 (show 3 ≤
      (SimpleString.character [65, 66, 0xD800]).codes.length by decide) true fun _ => none).2
  exact ⟨encoded, hencoded, hiff.2 (by decide +kernel)⟩

/-- The surrogate at 1 is behind two octets. -/
theorem accented_surrogate_position :
    encodeUtf8 .lf (.character [0xE9, 0xD800]) 0 2 false none (fun _ => none) =
        some ⟨none, [⟨.lf, [0xE9, 0xD800], 2, 1⟩]⟩ ∧
      surrogates 0 [0xE9, 0xD800] = [1] := by
  decide +kernel

end Sbcl.Utf8
