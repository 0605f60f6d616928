import Sbcl.Lib.RunSort

/-!
# Unicode normalization (code/unicode-norm.lisp)

* `CharacterData` : what the tables of the character database say, with entries that are fully
  decomposed;
* `decomposeString` : the decompositions, with their marks in order;
* `canonicallyCompose` : the composition in place, where a pointer into the list is the index of its
  cons.

A character is its code. The count of the decomposed characters, which nothing reads, is left out.
-/

namespace Sbcl.Unicode

abbrev Character := ℕ

/-- The data of a character: `+character-misc-database+` and the table of decompositions. -/
structure DecompositionTable where
  /-- The length of the decomposition and whether it is a compatibility decomposition. -/
  charDecompositionInfo : Character → ℕ × Bool
  /-- The characters in the table for a character that is no Hangul syllable. -/
  decompositions : Character → ℕ → Character

variable (data : DecompositionTable) (combiningClass : Character → ℕ)

/-- The characters for which `char-decomposition` calls the callback. -/
def charDecomposition (char : Character) (length : ℕ) : List Character :=
  if length = 1 then [data.decompositions char 0]
  else if 0xac00 ≤ char ∧ char ≤ 0xd7a3 then
    let lbase := 0x1100
    let vbase := 0x1161
    let tbase := 0x11a7
    let vcount := 21
    let tcount := 28
    let ncount := vcount * tcount
    let sindex := char - 0xac00
    let lindex := sindex / ncount
    let vindex := sindex % ncount / tcount
    let tindex := sindex % tcount
    [lbase + lindex, vbase + vindex] ++ if tindex > 0 then [tbase + tindex] else []
  else (List.range length).map (data.decompositions char)

/-- Does `decompose-char` take a character apart? -/
def Decomposes (compatibility : Bool) (char : Character) : Prop :=
  0 < (data.charDecompositionInfo char).1 ∧
    (compatibility = true ∨ (data.charDecompositionInfo char).2 = false)

instance (compatibility : Bool) (char : Character) :
    Decidable (Decomposes data compatibility char) :=
  inferInstanceAs (Decidable (_ ∧ _))

/-- The canonical entries are fully decomposed, and those that `decompose-char` takes apart again
get simpler. -/
structure CharacterData extends DecompositionTable where
  rank : Character → ℕ
  canonical : ∀ char, Decomposes toDecompositionTable false char →
    ∀ d ∈ charDecomposition toDecompositionTable char (charDecompositionInfo char).1,
      ¬ Decomposes toDecompositionTable false d
  simpler : ∀ char, Decomposes toDecompositionTable true char →
    ∀ d ∈ charDecomposition toDecompositionTable char (charDecompositionInfo char).1,
    rank d < rank char

variable (table : CharacterData)

/-- The characters for which `decompose-char` calls its callback. -/
def decomposeChar (char : Character) (compatibility : Bool) : List Character :=
  let info := (table.charDecompositionInfo char).1
  if _h : Decomposes table.toDecompositionTable compatibility char then
    if _hc : compatibility = true then
      (charDecomposition table.toDecompositionTable char info).attach.flatMap fun d =>
        decomposeChar d.1 true
    else charDecomposition table.toDecompositionTable char info
  else [char]
termination_by table.rank char
decreasing_by
  subst _hc
  exact table.simpler char _h d.1 d.2

/-- The variables of `decompose-string`. -/
structure Collector where
  /-- The characters in reverse order. -/
  chars : List Character
  previousCombiningClass : ℕ

/-- The loop that puts a mark behind the head of `chars`. -/
def insertMark (char : Character) (combiningClassOfChar : ℕ) : List Character → List Character
  | [] => []
  | [c] => [c, char]
  | c :: nextChar :: cdr =>
    if combiningClass nextChar ≤ combiningClassOfChar then c :: char :: nextChar :: cdr
    else c :: insertMark char combiningClassOfChar (nextChar :: cdr)

def collect (s : Collector) (char : Character) : Collector :=
  let cc := combiningClass char
  if 0 < cc ∧ cc < s.previousCombiningClass then
    { s with chars := insertMark combiningClass char cc s.chars }
  else ⟨char :: s.chars, cc⟩

/-- The characters that are collected from a string. -/
def decomposition (compatibility : Bool) (filter : Option (Character → Bool))
    (string : List Character) : List Character :=
  let chars := string.flatMap fun char => decomposeChar table char compatibility
  match filter with
  | none => chars
  | some filter => chars.filter filter

def decomposeString (string : List Character) (compatibility : Bool)
    (filter : Option (Character → Bool)) : List Character :=
  ((decomposition table compatibility filter string).foldl (collect combiningClass) ⟨[],
    0⟩).chars.reverse

variable (primaryComposition : Character → Character → Option Character)

/-- The loop, while there is a current character. The cell of `previous` is before that of
`current`. -/
def composeLoop (result : List Character) (combineWith previous current : ℕ) : List Character :=
  if hcurrent : current < result.length then
    let char := result[current]
    let combineWith' := if combiningClass char = 0 then current else combineWith
    if previous ≠ combineWith ∧ combiningClass (result.getD previous 0) ≥ combiningClass char then
      composeLoop result combineWith' current (current + 1)
    else
      match primaryComposition (result.getD combineWith 0) char with
      | some comp =>
        composeLoop ((result.set combineWith comp).eraseIdx current) combineWith previous current
      | none => composeLoop result combineWith' current (current + 1)
  else result
termination_by result.length - current
decreasing_by
  · omega
  · rw [List.length_eraseIdx, List.length_set, if_pos hcurrent]
    omega
  · omega

def canonicallyCompose (list : List Character) : List Character :=
  match list.findIdx? fun char => combiningClass char = 0 with
  | none => list
  | some combineWith => composeLoop combiningClass primaryComposition list combineWith combineWith
    (combineWith + 1)

inductive Form where
  | nfd
  | nfkd
  | nfc
  | nfkc

/-- `normalize-string` of a string that is not a base string, which is returned as it is. -/
def normalizeString (string : List Character) (form : Form) (filter : Option (Character → Bool)) :
    List Character :=
  match form with
  | .nfc => canonicallyCompose combiningClass primaryComposition
    (decomposeString combiningClass table string false filter)
  | .nfd => decomposeString combiningClass table string false filter
  | .nfkc => canonicallyCompose combiningClass primaryComposition
    (decomposeString combiningClass table string true filter)
  | .nfkd => decomposeString combiningClass table string true filter

end Sbcl.Unicode
