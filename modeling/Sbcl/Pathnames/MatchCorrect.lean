import Mathlib.Computability.Language
import Sbcl.Pathnames.Match

/-!
# Matching is membership in a language

* `Piece.lang`, `DirElement.lang` : the strings of a piece, and the lists of an element of a
  directory;
* `segments`, `substrings` : the literal strings and the maximal runs of wild pieces, and what a run
  stands for;
* `Reads` : a string, piece by piece, with the run that is open;
* `matchesFrom_sound`, `matchesFrom_complete` : the matcher follows the readings;
* `directoryComponentsMatch_tail` : the lists behind the root.
-/

namespace Sbcl.Pathnames

open List Option
open Language (append_mem_mul mem_mul mem_one)

variable {curSub : Bool} {c : Char} {chars string : List Char} {o : Option (List Char)}

def Piece.lang : Piece → Language Char
  | .string s => {s}
  | .characterSet cs => {x | ∃ c ∈ cs, x = [c]}
  | .singleCharWild => {x | ∃ c, x = [c]}
  | .multiCharWild => ⊤

def Piece.isWild : Piece → Bool
  | .string _ => false
  | _ => true

/-- The concatenation of the pieces. -/
def patternLang (pattern : List Piece) : Language Char := (pattern.map Piece.lang).prod

/-- A literal string, or a maximal run of wild pieces. -/
inductive Segment where
  | literal (s : List Char)
  | run (pieces : List Piece)

def Segment.lang : Segment → Language Char
  | .literal s => {s}
  | .run pieces => patternLang pieces

def segments : List Piece → List Segment
  | [] => []
  | .string s :: pieces => .literal s :: segments pieces
  | piece :: pieces =>
    match segments pieces with
    | .run run :: segs => .run (piece :: run) :: segs
    | segs => .run [piece] :: segs

/-- What the runs stand for. -/
def substrings : List Segment → List (List Char) → List (List Char)
  | .run _ :: segs, part :: parts => part :: substrings segs parts
  | .literal _ :: segs, _ :: parts => substrings segs parts
  | _, _ => []

/-- The string is made of the literals and of the substrings between them. -/
def Splits (segs : List Segment) (string : List Char) (subs : List (List Char)) : Prop :=
  ∃ parts, List.Forall₂ (fun seg part => part ∈ seg.lang) segs parts ∧ parts.flatten = string ∧
    substrings segs parts = subs

/-! ## Readings -/

/-- A string is read by pieces, where a run of wild pieces may be open with what it stands for so
far. -/
inductive Reads : Option (List Char) → List Piece → List Char → List (List Char) → Prop
  | nil : Reads none [] [] []
  | nilOpen (sub : List Char) : Reads (some sub) [] [] [sub]
  | literal {s pieces rest subs} : Reads none pieces rest subs →
    Reads none (.string s :: pieces) (s ++ rest) subs
  | literalOpen (sub : List Char) {s pieces rest subs} : Reads none pieces rest subs →
      Reads (some sub) (.string s :: pieces) (s ++ rest) (sub :: subs)
  | wild {o : Option (List Char)} {piece pieces part rest subs} : piece.isWild = true →
    part ∈ piece.lang →
      Reads (some (o.getD [] ++ part)) pieces rest subs →
      Reads o (piece :: pieces) (part ++ rest) subs

theorem patternLang_cons (piece : Piece) (pieces : List Piece) :
    patternLang (piece :: pieces) = piece.lang * patternLang pieces := by
  rw [patternLang, map_cons, prod_cons]
  rfl

theorem mem_patternLang_nil : string ∈ patternLang [] ↔ string = [] := mem_one string

variable {pieces : List Piece} {subs : List (List Char)}

theorem Reads.mem
    (h : Reads o pieces string subs) : string ∈ patternLang pieces := by
  induction h with
  | nil => exact mem_patternLang_nil.2 rfl
  | nilOpen sub => exact mem_patternLang_nil.2 rfl
  | literal h ih => exact patternLang_cons _ _ ▸ append_mem_mul rfl ih
  | literalOpen sub h ih => exact patternLang_cons _ _ ▸ append_mem_mul rfl ih
  | wild hwild hpart h ih => exact patternLang_cons _ _ ▸ append_mem_mul hpart ih

theorem exists_reads : ∀ {pieces : List Piece} {string : List Char} (o : Option (List Char)),
    string ∈ patternLang pieces → ∃ subs, Reads o pieces string subs
  | [], string, o, h => by
    obtain rfl := mem_patternLang_nil.1 h
    cases o with
    | none => exact ⟨_, .nil⟩
    | some sub => exact ⟨_, .nilOpen sub⟩
  | piece :: pieces, string, o, h => by
    rw [patternLang_cons, mem_mul] at h
    obtain ⟨part, hpart, rest, hrest, rfl⟩ := h
    by_cases hwild : piece.isWild = true
    · obtain ⟨subs, hsubs⟩ := exists_reads (some (o.getD [] ++ part)) hrest
      exact ⟨subs, .wild hwild hpart hsubs⟩
    obtain ⟨subs, hsubs⟩ := exists_reads none hrest
    cases piece with
    | string s =>
      obtain rfl : part = s := hpart
      cases o with
      | none => exact ⟨subs, .literal hsubs⟩
      | some sub => exact ⟨sub :: subs, .literalOpen sub hsubs⟩
    | singleCharWild | multiCharWild | characterSet cs => exact absurd rfl hwild

/-- The segments, of which the first run goes on from one that is open. -/
def SplitsOpen (sub : List Char) (segs : List Segment) (string : List Char)
    (subs : List (List Char)) : Prop :=
  match segs with
  | .run run :: segs => ∃ part rest subs', part ∈ patternLang run ∧ string = part ++ rest ∧
    subs = (sub ++ part) :: subs' ∧
      Splits segs rest subs'
  | segs => ∃ subs', subs = sub :: subs' ∧ Splits segs string subs'

theorem Splits.literal {segs : List Segment} (s : List Char)
    (h : Splits segs string subs) : Splits (.literal s :: segs) (s ++ string) subs := by
  obtain ⟨parts, hparts, rfl, rfl⟩ := h
  exact ⟨s :: parts, .cons rfl hparts, rfl, rfl⟩

theorem Splits.run {segs : List Segment} {string part : List Char} {run : List Piece}
    (hpart : part ∈ patternLang run) (h : Splits segs string subs) :
    Splits (.run run :: segs) (part ++ string) (part :: subs) := by
  obtain ⟨parts, hparts, rfl, rfl⟩ := h
  exact ⟨part :: parts, .cons hpart hparts, rfl, rfl⟩

variable {piece : Piece}

theorem segments_wild (hwild : piece.isWild = true) (pieces : List Piece) :
    segments (piece :: pieces) = match segments pieces with
      | .run run :: segs => .run (piece :: run) :: segs
      | segs => .run [piece] :: segs := by
  cases piece with
  | string s => cases hwild
  | singleCharWild | multiCharWild | characterSet cs => rfl

variable {rest : List Char}

theorem SplitsOpen.wild {part : List Char} {sub : List Char}
    (hwild : piece.isWild = true) (hpart : part ∈ piece.lang)
    (h : SplitsOpen (sub ++ part) (segments pieces) rest subs) :
    ∃ run segs part' rest' subs', segments (piece :: pieces) = .run run :: segs ∧
      part' ∈ patternLang run ∧
      part ++ rest = part' ++ rest' ∧ subs = (sub ++ part') :: subs' ∧ Splits segs rest' subs' := by
  rw [segments_wild hwild]
  unfold SplitsOpen at h
  split at h
  · rename_i run segs hsegs
    obtain ⟨part', rest', subs', hpart', rfl, rfl, hsplits⟩ := h
    refine ⟨piece :: run, segs, part ++ part', rest', subs', rfl, ?_, by simp, by simp, hsplits⟩
    exact patternLang_cons _ _ ▸ append_mem_mul hpart hpart'
  rename_i segs hnot
  obtain ⟨subs', rfl, hsplits⟩ := h
  refine ⟨[piece], segments pieces, part, rest, subs', ?_, ?_, rfl, rfl, hsplits⟩
  · cases hsegs : segments pieces with
    | nil => rfl
    | cons seg segs =>
      cases seg with
      | literal s => rfl
      | run run => exact absurd hsegs (hnot run segs)
  · rw [patternLang_cons, show patternLang [] = 1 from rfl, mul_one]
    exact hpart

/-- With a run that is open or without. -/
def SplitsFrom : Option (List Char) → List Segment → List Char → List (List Char) → Prop
  | none => Splits
  | some sub => SplitsOpen sub

theorem Reads.splits
    (h : Reads o pieces string subs) : SplitsFrom o (segments pieces) string subs := by
  induction h with
  | nil => exact ⟨[], .nil, rfl, rfl⟩
  | nilOpen sub => exact ⟨[], rfl, [], .nil, rfl, rfl⟩
  | literal h ih => exact Splits.literal _ ih
  | literalOpen sub h ih => exact ⟨_, rfl, Splits.literal _ ih⟩
  | @wild o piece pieces part rest subs hwild hpart h ih =>
    obtain ⟨run, segs, part', rest', subs', hsegs, hpart', heq, rfl, hsplits⟩ :=
      SplitsOpen.wild hwild hpart ih
    rw [hsegs, heq]
    cases o with
    | none => exact Splits.run hpart' hsplits
    | some sub => exact ⟨part', rest', subs', hpart', rfl, rfl, hsplits⟩

/-! ## The matcher -/

/-- The run that is open, with its characters in reverse. -/
def openRun (curSub : Bool) (chars : List Char) : Option (List Char) :=
  if curSub then some chars.reverse else none

theorem openRun_getD (h : curSub = false → chars = []) :
    (openRun curSub chars).getD [] = chars.reverse := by
  cases curSub with
  | false =>
    rw [h rfl]
    rfl
  | true => rfl

theorem Reads.push
    (h : curSub = false → chars = []) (hwild : piece.isWild = true) (hc : [c] ∈ piece.lang)
    (hreads : Reads (openRun true (c :: chars)) pieces rest subs) :
    Reads (openRun curSub chars) (piece :: pieces) (c :: rest) subs := by
  refine Reads.wild hwild hc ?_
  rw [openRun_getD h]
  simpa [openRun] using hreads

theorem Reads.pushMulti
    (h : curSub = false → chars = [])
    (hreads : Reads (openRun true (c :: chars)) (.multiCharWild :: pieces) rest subs) :
    Reads (openRun curSub chars) (.multiCharWild :: pieces) (c :: rest) subs := by
  cases hreads with
  | @wild _ _ _ part rest _ hwild hpart hrest =>
    show Reads _ _ ((c :: part) ++ rest) _
    refine Reads.wild hwild trivial ?_
    rw [openRun_getD h]
    simpa [openRun] using hrest

theorem maybePrepend_eq (subs : List (List Char)) (curSub : Bool) (chars : List Char) :
    maybePrepend subs curSub chars = (openRun curSub chars).toList ++ subs := by
  cases curSub <;> rfl

theorem matchesFrom_sound {out : List (List Char)}
    (hopen : curSub = false → chars = [])
    (h : matchesFrom pieces string subs curSub chars = some out) :
    ∃ new, Reads (openRun curSub chars) pieces string new ∧ out = new.reverse ++ subs := by
  fun_induction matchesFrom pieces string subs curSub chars with
  | case1 subs curSub chars =>
    obtain rfl := Option.some.inj h
    rw [maybePrepend_eq]
    cases curSub with
    | false => exact ⟨[], .nil, rfl⟩
    | true => exact ⟨[chars.reverse], .nilOpen _, rfl⟩
  | case2 => cases h
  | case3 piece pieces string subs curSub chars hpiece ih =>
    obtain ⟨new, hnew, rfl⟩ := ih (fun _ => rfl) h
    have hstring : string = piece ++ string.drop piece.length := by
      conv_lhs => rw [← take_append_drop piece.length string, hpiece.2]
    rw [maybePrepend_eq, hstring]
    cases curSub with
    | false => exact ⟨new, .literal hnew, rfl⟩
    | true => exact ⟨chars.reverse :: new, .literalOpen _ hnew, by simp [openRun]⟩
  | case4 => cases h
  | case5 => cases h
  | case6 cs pieces subs curSub chars c rest hc ih =>
    obtain ⟨new, hnew, rfl⟩ := ih nofun h
    exact ⟨new, hnew.push hopen rfl ⟨c, hc, rfl⟩, rfl⟩
  | case7 => cases h
  | case8 => cases h
  | case9 pieces subs curSub chars c rest ih =>
    obtain ⟨new, hnew, rfl⟩ := ih nofun h
    exact ⟨new, hnew.push hopen rfl ⟨c, rfl⟩, rfl⟩
  | case10 pieces string subs curSub chars newSubs hnew ih =>
    obtain rfl := Option.some.inj h
    obtain ⟨new, hreads, rfl⟩ := ih nofun hnew
    refine ⟨new, ?_, rfl⟩
    show Reads _ _ ([] ++ string) _
    refine Reads.wild rfl trivial ?_
    rw [openRun_getD hopen, append_nil]
    exact hreads
  | case11 => cases h
  | case12 pieces subs curSub chars c rest hnone ih ih' =>
    obtain ⟨new, hnew, rfl⟩ := ih' nofun h
    exact ⟨new, hnew.pushMulti hopen, rfl⟩

theorem matchesFrom_multi
    (h : ∀ chars, matchesFrom pieces rest subs true chars ≠ none) :
    ∀ (part : List Char) (curSub : Bool) (chars : List Char), matchesFrom (.multiCharWild :: pieces)
      (part ++ rest) subs curSub chars ≠ none
  | part, curSub, chars => by
    rw [matchesFrom.eq_def]
    dsimp only
    split
    · exact some_ne_none _
    rename_i hnone
    cases part with
    | nil => exact absurd hnone (h chars)
    | cons c part => exact matchesFrom_multi h part true (c :: chars)

theorem matchesFrom_complete {new : List (List Char)}
    (hreads : Reads o pieces string new) :
    ∀ (subs : List (List Char)) (curSub : Bool) (chars : List Char),
      matchesFrom pieces string subs curSub chars ≠ none := by
  induction hreads with
  | nil | nilOpen sub =>
    intro subs curSub chars
    rw [matchesFrom, if_pos rfl]
    exact some_ne_none _
  | literal h ih | literalOpen sub h ih =>
    intro subs curSub chars
    rw [matchesFrom, if_pos (by simp), drop_left]
    exact ih _ _ _
  | @wild o piece pieces part rest new hwild hpart h ih =>
    intro subs curSub chars
    cases piece with
    | string s => cases hwild
    | characterSet cs =>
      obtain ⟨c, hc, rfl⟩ := hpart
      rw [singleton_append, matchesFrom, if_pos hc]
      exact ih _ _ _
    | singleCharWild =>
      obtain ⟨c, rfl⟩ := hpart
      rw [singleton_append, matchesFrom]
      exact ih _ _ _
    | multiCharWild => exact matchesFrom_multi (ih subs true) part curSub chars

theorem patternMatches_iff (pattern : List Piece) (string : List Char) :
    (patternMatches pattern string).1 = true ↔ string ∈ patternLang pattern := by
  unfold patternMatches
  constructor
  · intro h
    split at h
    · rename_i subs hsubs
      obtain ⟨new, hreads, -⟩ := matchesFrom_sound (fun _ => rfl) hsubs
      exact hreads.mem
    · cases h
  · intro h
    obtain ⟨new, hreads⟩ := exists_reads none h
    split
    · rfl
    · rename_i hnone
      exact absurd hnone (matchesFrom_complete hreads [] false [])

theorem patternMatches_splits {pattern : List Piece}
    (h : (patternMatches pattern string).1 = true) :
    Splits (segments pattern) string (patternMatches pattern string).2 := by
  unfold patternMatches at h ⊢
  split
  · rename_i subs hsubs
    obtain ⟨new, hreads, rfl⟩ := matchesFrom_sound (fun _ => rfl) hsubs
    rw [append_nil, reverse_reverse]
    exact hreads.splits
  · rename_i hnone
    rw [hnone] at h
    cases h

/-! ## Languages of directories -/

/-- The lists of an element: a pattern stands for its strings, and for itself. -/
def DirElement.lang : DirElement → Language DirElement
  | .component .wildInferiors => ⊤
  | .component (.piece .wild) => {x | ∃ d, x = [d]}
  | .component (.piece (.pattern pieces)) =>
    {x | x = [.component (.piece (.pattern pieces))] ∨ ∃ s ∈ patternLang pieces, x = [.component
      (.piece (.string s))]}
  | d => {[d]}

def directoryLang (wild : List DirElement) : Language DirElement := (wild.map DirElement.lang).prod

theorem directoryLang_cons (w : DirElement) (ws : List DirElement) :
    directoryLang (w :: ws) = w.lang * directoryLang ws := by
  rw [directoryLang, map_cons, prod_cons]
  rfl

variable {thing : List DirElement}

theorem mem_directoryLang_nil : thing ∈ directoryLang [] ↔ thing = [] := mem_one thing

theorem lang_cases (d : DirElement) : d = .component .wildInferiors ∨
    d = .component (.piece .wild) ∨
    (∃ pieces, d = .component (.piece (.pattern pieces))) ∨ ∀ x, x ∈ d.lang ↔ x = [d] := by
  cases d with
  | root r => exact .inr (.inr (.inr fun _ => Iff.rfl))
  | component d =>
    cases d with
    | wildInferiors => exact .inl rfl
    | up | back | home | homeOf user => exact .inr (.inr (.inr fun _ => Iff.rfl))
    | piece c =>
      cases c with
      | wild => exact .inr (.inl rfl)
      | pattern pieces => exact .inr (.inr (.inl ⟨pieces, rfl⟩))
      | string s => exact .inr (.inr (.inr fun _ => Iff.rfl))

theorem self_mem_lang (d : DirElement) : [d] ∈ d.lang := by
  rcases lang_cases d with rfl | rfl | ⟨pieces, rfl⟩ | h
  · trivial
  · exact ⟨_, rfl⟩
  · exact .inl rfl
  · exact (h _).2 rfl

theorem self_mem_directoryLang : ∀ thing : List DirElement, thing ∈ directoryLang thing
  | [] => mem_directoryLang_nil.2 rfl
  | d :: thing => directoryLang_cons d thing ▸
    append_mem_mul (self_mem_lang d) (self_mem_directoryLang thing)

variable {w : DirElement}

theorem eq_singleton_of_mem_lang {x : List DirElement} (hw : w ≠ .component .wildInferiors)
    (h : x ∈ w.lang) : ∃ d, x = [d] := by
  rcases lang_cases w with rfl | rfl | ⟨pieces, rfl⟩ | hlang
  · exact absurd rfl hw
  · exact h
  · rcases h with h | ⟨s, -, h⟩
    · exact ⟨_, h⟩
    · exact ⟨_, h⟩
  · exact ⟨w, (hlang x).1 h⟩

variable {ws : List DirElement}

theorem mem_directoryLang_cons (hw : w ≠ .component .wildInferiors) :
    thing ∈ directoryLang (w :: ws) ↔ ∃ d rest, thing = d :: rest ∧ [d] ∈ w.lang ∧
      rest ∈ directoryLang ws := by
  rw [directoryLang_cons, mem_mul]
  constructor
  · rintro ⟨x, hx, rest, hrest, rfl⟩
    obtain ⟨d, rfl⟩ := eq_singleton_of_mem_lang hw hx
    exact ⟨d, rest, rfl, hx, hrest⟩
  · rintro ⟨d, rest, rfl, hd, hrest⟩
    exact ⟨[d], hd, rest, hrest, rfl⟩

theorem mem_directoryLang_inferiors :
    thing ∈ directoryLang (.component .wildInferiors :: ws) ↔ ∃ pre rest, thing = pre ++ rest ∧
      rest ∈ directoryLang ws := by
  rw [directoryLang_cons, mem_mul]
  constructor
  · rintro ⟨pre, -, rest, hrest, rfl⟩
    exact ⟨pre, rest, rfl, hrest⟩
  · rintro ⟨pre, rest, rfl, hrest⟩
    exact ⟨pre, trivial, rest, hrest, rfl⟩

/-- Only `:wild-inferiors` stands for the empty list, and then for every list. -/
theorem mem_of_nil_mem : ∀ {ws : List DirElement}, ws ≠ [] → [] ∈ directoryLang ws → ∀ thing,
    thing ∈ directoryLang ws
  | w :: ws, _, h, thing => by
    by_cases hw : w = .component .wildInferiors
    · subst hw
      rw [mem_directoryLang_inferiors] at h ⊢
      obtain ⟨pre, rest, heq, hrest⟩ := h
      obtain ⟨-, rfl⟩ := append_eq_nil_iff.1 heq.symm
      exact ⟨thing, [], by simp, hrest⟩
    · rw [mem_directoryLang_cons hw] at h
      obtain ⟨d, rest, heq, -⟩ := h
      cases heq

/-! ## Directories -/

theorem compareComponent_iff {c c' : Option Component} : compareComponent c c' = true ↔ c = c' := by
  have hzip : ∀ {ps ps' : List Piece}, ps.length = ps'.length →
      ((∀ p ∈ ps.zip ps', p.1 = p.2) ↔ ps = ps') := by
    intro ps
    induction ps with
    | nil =>
      intro ps' hlength
      simp [length_eq_zero_iff.mp hlength.symm]
    | cons p ps ih =>
      intro ps' hlength
      cases ps' with
      | nil => simp at hlength
      | cons p' ps' =>
        have := @ih ps' (by simpa using hlength)
        simp only [zip_cons_cons, mem_cons, forall_eq_or_imp, this, List.cons.injEq]
  rcases c with _ | (s | _ | ps) <;> rcases c' with _ | (s' | _ | ps') <;> simp [compareComponent]
  constructor
  · rintro ⟨hlength, hall⟩
    exact (hzip hlength).mp fun p hp => hall p.1 p.2 hp
  · rintro rfl
    exact ⟨rfl, fun p p' hp => (hzip rfl).mpr rfl (p, p') hp⟩

theorem componentsMatch_spec {t : DirElement} (ht : t.isCons = false) (hw : w.isCons = false)
    (hne : w ≠ .component .wildInferiors) :
    ∃ b, componentsMatch t w = some b ∧ (b = true ↔ [t] ∈ w.lang) := by
  unfold componentsMatch
  rw [if_neg (by simp [ht, hw])]
  by_cases heq : t = w ∨ w = .component (.piece .wild)
  · rw [if_pos heq]
    refine ⟨true, rfl, iff_of_true rfl ?_⟩
    rcases heq with rfl | rfl
    · exact self_mem_lang t
    · exact ⟨t, rfl⟩
  · rw [if_neg heq]
    rw [not_or] at heq
    split
    · rename_i s pieces
      refine ⟨_, rfl, (patternMatches_iff pieces s).trans ⟨fun h => .inr ⟨s, h, rfl⟩, fun h => ?_⟩⟩
      rcases h with h | ⟨s', hs', h⟩
      · cases h
      · cases h
        exact hs'
    · rename_i s s'
      refine ⟨_, rfl, iff_of_false ?_ ?_⟩
      · rw [decide_eq_true_iff]
        rintro rfl
        exact heq.1 rfl
      · rintro h
        exact heq.1 (List.cons.inj h).1
    · rename_i pieces pieces'
      refine ⟨_, rfl, iff_of_false ?_ ?_⟩
      · rw [compareComponent_iff]
        rintro h
        cases h
        exact heq.1 rfl
      · rintro (h | ⟨s, -, h⟩)
        · exact heq.1 (List.cons.inj h).1
        · cases h
    · rename_i hpattern hstring hpatterns
      refine ⟨false, rfl, iff_of_false Bool.false_ne_true fun h => ?_⟩
      rcases lang_cases w with rfl | rfl | ⟨pieces, rfl⟩ | hlang
      · exact hne rfl
      · exact heq.2 rfl
      · rcases h with h | ⟨s, -, h⟩
        · exact heq.1 (List.cons.inj h).1
        · exact hpattern s pieces (List.cons.inj h).1 rfl
      · exact heq.1 (List.cons.inj ((hlang _).1 h)).1

theorem inferiorsLoop_spec {matchSubdirs : List DirElement → Option Bool} :
    ∀ {thing : List DirElement}, (∀ rest, rest <:+ thing → ∃ b, matchSubdirs rest = some b ∧
      (b = true ↔ rest ∈ directoryLang ws)) →
      ws ≠ [] → ∃ b, inferiorsLoop matchSubdirs thing = some b ∧
        (b = true ↔ thing ∈ directoryLang (.component .wildInferiors :: ws))
  | [], h, _ => by
    obtain ⟨b, hb, hiff⟩ := h [] suffix_rfl
    refine ⟨b, ?_, hiff.trans ?_⟩
    · rw [inferiorsLoop, hb]
      cases b <;> rfl
    rw [mem_directoryLang_inferiors]
    constructor
    · intro hmem
      exact ⟨[], [], rfl, hmem⟩
    · rintro ⟨pre, rest, heq, hrest⟩
      obtain ⟨-, rfl⟩ := append_eq_nil_iff.1 heq.symm
      exact hrest
  | t :: thing, h, hws => by
    obtain ⟨b, hb, hiff⟩ := h (t :: thing) suffix_rfl
    rw [inferiorsLoop, hb]
    simp only [bind_eq_bind, bind_some]
    by_cases hmem : t :: thing ∈ directoryLang ws
    · rw [if_pos (hiff.2 hmem)]
      exact ⟨true, rfl, iff_of_true rfl (mem_directoryLang_inferiors.2 ⟨[], _, rfl, hmem⟩)⟩
    rw [if_neg (mt hiff.1 hmem)]
    by_cases hnil : thing = []
    · subst hnil
      rw [if_pos rfl]
      refine ⟨false, rfl, iff_of_false Bool.false_ne_true fun hmem' => ?_⟩
      obtain ⟨pre, rest, heq, hrest⟩ := mem_directoryLang_inferiors.1 hmem'
      rcases append_eq_cons_iff.1 heq.symm with ⟨-, rfl⟩ | ⟨pre', -, heq'⟩
      · exact hmem hrest
      · obtain ⟨-, rfl⟩ := append_eq_nil_iff.1 heq'.symm
        exact hmem (mem_of_nil_mem hws hrest _)
    · rw [if_neg hnil]
      obtain ⟨b', hb', hiff'⟩ := inferiorsLoop_spec
        (fun rest (hrest : rest <:+ thing) => h rest (hrest.trans (suffix_cons t thing))) hws
      refine ⟨b', hb', hiff'.trans ?_⟩
      rw [mem_directoryLang_inferiors, mem_directoryLang_inferiors]
      constructor
      · rintro ⟨pre, rest, rfl, hrest⟩
        exact ⟨t :: pre, rest, rfl, hrest⟩
      rintro ⟨pre, rest, heq, hrest⟩
      rcases append_eq_cons_iff.1 heq.symm with ⟨-, rfl⟩ | ⟨pre', -, heq'⟩
      · exact absurd hrest hmem
      · exact ⟨pre', rest, heq', hrest⟩

/-- What `eq` says about lists: it holds of the same list only, and of the empty one. -/
structure PointerEq (eq : List DirElement → List DirElement → Bool) : Prop where
  sound : ∀ {thing wild}, eq thing wild = true → thing = wild
  nil : eq [] [] = true

section Directories

variable {eq : List DirElement → List DirElement → Bool}

/-- One element and the rest, unless a null directory is taken for more. -/
theorem directoryComponentsMatch_cons (heq : PointerEq eq) {w : DirElement}
    {wild thing : List DirElement} (hw : w.isCons = false)
    (ht : ∀ d ∈ thing, d.isCons = false)
    (hroot : ¬ (thing = [] ∧ rootedInferiors (w :: wild) = true))
    (ih : ∀ thing, (∀ d ∈ thing, d.isCons = false) →
      ∃ b, directoryComponentsMatch eq thing wild = some b ∧
        (b = true ↔ thing ∈ directoryLang wild)) :
    ∃ b, directoryComponentsMatch eq thing (w :: wild) = some b ∧
      (b = true ↔ thing ∈ directoryLang (w :: wild)) := by
  rw [directoryComponentsMatch.eq_def]
  dsimp only
  by_cases hsame : eq thing (w :: wild) = true
  · rw [if_pos hsame, heq.sound hsame]
    exact ⟨true, rfl, iff_of_true rfl (self_mem_directoryLang _)⟩
  rw [if_neg hsame, if_neg hroot]
  by_cases hinferiors : w = .component .wildInferiors
  · subst hinferiors
    rw [if_pos rfl]
    by_cases hnil : wild = []
    · subst hnil
      rw [if_pos rfl]
      exact ⟨true, rfl, iff_of_true rfl (mem_directoryLang_inferiors.2 ⟨thing, [], by simp,
        mem_directoryLang_nil.2 rfl⟩)⟩
    · rw [if_neg hnil]
      exact inferiorsLoop_spec (fun rest hrest => ih rest fun d hd => ht d (hrest.subset hd)) hnil
  · rw [if_neg hinferiors, mem_directoryLang_cons hinferiors]
    cases thing with
    | nil => exact ⟨false, rfl, iff_of_false Bool.false_ne_true fun ⟨d, rest, h, _⟩ => by cases h⟩
    | cons t thing =>
      obtain ⟨b, hb, hiff⟩ := componentsMatch_spec (ht t mem_cons_self) hw hinferiors
      dsimp only
      rw [hb]
      simp only [bind_eq_bind, bind_some]
      by_cases hmem : [t] ∈ w.lang
      · rw [if_pos (hiff.2 hmem)]
        obtain ⟨b', hb', hiff'⟩ := ih thing fun d hd => ht d (mem_cons_of_mem t hd)
        refine ⟨b', hb', hiff'.trans ⟨fun h => ⟨t, thing, rfl, hmem, h⟩, ?_⟩⟩
        rintro ⟨d, rest, h, -, hrest⟩
        cases h
        exact hrest
      · rw [if_neg (mt hiff.1 hmem)]
        refine ⟨false, rfl, iff_of_false Bool.false_ne_true ?_⟩
        rintro ⟨d, rest, h, hd, -⟩
        cases h
        exact hmem hd

theorem directoryComponentsMatch_tail (heq : PointerEq eq) :
    ∀ {wild : List DirElement} (thing : List DirElement),
    (∀ d ∈ wild, d.isCons = false) → (∀ d ∈ thing, d.isCons = false) → (∀ r, .root r ∉ wild) →
    ∃ b, directoryComponentsMatch eq thing wild = some b ∧ (b = true ↔ thing ∈ directoryLang wild)
  | [], thing, _, _, _ => by
    rw [directoryComponentsMatch, mem_directoryLang_nil]
    by_cases hsame : eq thing [] = true
    · rw [if_pos hsame]
      exact ⟨true, rfl, iff_of_true rfl (heq.sound hsame)⟩
    rw [if_neg hsame]
    refine ⟨false, rfl, iff_of_false Bool.false_ne_true ?_⟩
    rintro rfl
    exact hsame heq.nil
  | w :: wild, thing, hw, ht, hroot => by
    have hrooted : rootedInferiors (w :: wild) = false := by
      cases w with
      | root r => exact absurd mem_cons_self (hroot r)
      | component d => rfl
    refine directoryComponentsMatch_cons heq (hw w mem_cons_self) ht (by simp [hrooted])
      fun thing ht => ?_
    exact directoryComponentsMatch_tail heq thing (fun d hd => hw d (mem_cons_of_mem w hd)) ht
      fun r hr => hroot r (mem_cons_of_mem w hr)

theorem isCons_of_mem {dirs : List DirComponent} (h : ∀ user, .homeOf user ∉ dirs) :
    ∀ d ∈ dirs.map DirElement.component, d.isCons = false := by
  intro d hd
  obtain ⟨c, hc, rfl⟩ := mem_map.1 hd
  cases c with
  | homeOf user => exact absurd hc (h user)
  | up | back | wildInferiors | home | piece c => rfl

theorem root_notMem (dirs : List DirComponent) (r : Root) :
    .root r ∉ dirs.map DirElement.component := by
  intro h
  obtain ⟨d, -, hd⟩ := mem_map.1 h
  cases hd

/-- Everything below a root is wild. -/
def Inferiors (wild : Option Directory) : Prop :=
  ∃ root dirs, wild = some ⟨root, .wildInferiors :: dirs⟩

theorem rootedInferiors_iff (wild : Option Directory) :
    rootedInferiors (directoryList wild) = true ↔ Inferiors wild := by
  constructor
  · intro h
    rcases wild with _ | ⟨root, _ | ⟨d, dirs⟩⟩
    · cases h
    · cases h
    · cases d with
      | wildInferiors => exact ⟨root, dirs, rfl⟩
      | up | back | home | homeOf user | piece c => cases h
  · rintro ⟨root, dirs, rfl⟩
    rfl

/-- There is no component `(:home user)`. -/
def NoUser (d : Option Directory) : Prop := ∀ directory ∈ d, ∀ user, .homeOf user ∉ directory.dirs

theorem isCons_directoryList {d : Option Directory} (h : NoUser d) : ∀ e ∈ directoryList d,
    e.isCons = false := by
  intro e he
  rcases d with _ | ⟨root, dirs⟩
  · cases he
  · rcases mem_cons.1 he with rfl | he
    · rfl
    · exact isCons_of_mem (h _ rfl) e he

theorem directoryComponentsMatch_spec (heq : PointerEq eq) {thing wild : Option Directory}
    (ht : NoUser thing) (hw : NoUser wild) :
    ∃ b, directoryComponentsMatch eq (directoryList thing) (directoryList wild) = some b ∧
      (b = true ↔ directoryList thing ∈ directoryLang (directoryList wild) ∨ thing = none ∧
        Inferiors wild) := by
  by_cases hnull : thing = none ∧ Inferiors wild
  · obtain ⟨rfl, root, dirs, rfl⟩ := hnull
    refine ⟨true, ?_, iff_of_true rfl (.inr ⟨rfl, root, dirs, rfl⟩)⟩
    rw [directoryComponentsMatch.eq_def]
    show (if eq [] _ = true then some true else some true) = some true
    rw [ite_self]
  · simp only [hnull, or_false]
    rcases wild with _ | ⟨root, dirs⟩
    · exact directoryComponentsMatch_tail heq _ (isCons_directoryList hw) (isCons_directoryList ht)
        fun r hr => by cases hr
    refine directoryComponentsMatch_cons heq rfl (isCons_directoryList ht) (fun ⟨hthing, hrooted⟩ =>
      hnull ⟨?_, ?_⟩) fun thing ht => ?_
    · rcases thing with _ | thing
      · rfl
      · cases hthing
    · exact (rootedInferiors_iff (some ⟨root, dirs⟩)).1 hrooted
    · exact directoryComponentsMatch_tail heq thing (isCons_of_mem (hw _ rfl)) ht (root_notMem dirs)

end Directories

/-- A null directory matches everything below the root, but is not such a list itself. -/
theorem directoryComponentsMatch_null :
    directoryComponentsMatch (fun thing wild => thing = wild) (directoryList none)
      (directoryList (some ⟨.absolute, [.wildInferiors]⟩)) =
        some true ∧
      directoryList none ∉ directoryLang (directoryList (some ⟨.absolute, [.wildInferiors]⟩)) := by
  refine ⟨by decide, fun h => ?_⟩
  rw [directoryList, directoryList, mem_directoryLang_cons (by decide)] at h
  obtain ⟨d, rest, h, -⟩ := h
  cases h

/-- A pattern matches the strings of its language, and returns what its maximal runs of wild pieces
stand for; the lists of directories match as their languages say, and a null directory matches what
is wild below the root. -/
theorem matching_exact (eq : List DirElement → List DirElement → Bool) (heq : PointerEq eq) :
    (∀ pattern string, ((patternMatches pattern string).1 = true ↔ string ∈ patternLang pattern) ∧
      ((patternMatches pattern string).1 = true →
        Splits (segments pattern) string (patternMatches pattern string).2)) ∧
    ∀ thing wild, NoUser thing → NoUser wild →
      ∃ b, directoryComponentsMatch eq (directoryList thing) (directoryList wild) = some b ∧
        (b = true ↔ directoryList thing ∈ directoryLang (directoryList wild) ∨ thing = none ∧
          Inferiors wild) :=
  ⟨fun pattern string => ⟨patternMatches_iff pattern string, patternMatches_splits⟩,
    fun _ _ ht hw => directoryComponentsMatch_spec heq ht hw⟩

/-- `*.c` with a dot more, and a directory somewhere below the root. -/
theorem matching_exact_sources :
    let pattern := [Piece.multiCharWild, .string ".c".toList]
    let string := "match.old.c".toList
    let thing :=
  some (Directory.mk .absolute [.home, .piece (.string "src".toList),
    .piece (.string "old".toList)])
    let wild := some (Directory.mk .absolute [.wildInferiors,
      .piece (.pattern [.string "o".toList, .multiCharWild])])
    ((patternMatches pattern string).1 = true ↔ string ∈ patternLang pattern) ∧
      ∃ b, directoryComponentsMatch (fun thing wild => thing = wild) (directoryList thing)
      (directoryList wild) = some b ∧
        (b = true ↔ directoryList thing ∈ directoryLang (directoryList wild) ∨ thing = none ∧
          Inferiors wild) := by
  have heq : PointerEq (fun thing wild => thing = wild) := ⟨fun h => of_decide_eq_true h, rfl⟩
  refine ⟨((matching_exact _ heq).1 _ _).1, (matching_exact _ heq).2 _ _ ?_ ?_⟩
  · rintro _ ⟨⟩ user huser
    simp at huser
  · rintro _ ⟨⟩ user huser
    simp at huser

end Sbcl.Pathnames
