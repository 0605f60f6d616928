import Sbcl.Unicode.Normalize

/-!
# Unicode normalization: correctness

* `decomposeChar_eq` : the entry of a character, with each of its characters decomposed in turn;
* `decomposeString_sorts` : the marks between two starters are stably sorted by class;
* `decomposeString_idem` : a decomposed string stays as it is;
* `composeStep` : a step of the composition of UAX#15, with every character between in sight;
* `composeLoop_eq` : looking back one step is enough;
* `normalizeString_eq` : the four normalization forms.
-/

namespace Sbcl.Unicode

open RunSort List Option
open List (isChain_append)
open Option (mem_some)

variable {combiningClass : Character → ℕ} {table : CharacterData}

/-! ## Decomposition -/

/-- A mark is not before one of a smaller class. -/
def Ordered (combiningClass : Character → ℕ) (list : List Character) : Prop :=
  list.IsChain fun a b => combiningClass b = 0 ∨ combiningClass a ≤ combiningClass b

theorem insertMark_eq {c : Character} {cc : ℕ} {r q : List Character} (hr : r ≠ [])
    (hsorted : r.Pairwise fun a b => combiningClass b ≤ combiningClass a)
    (hhead : ∀ a ∈ r.head?, cc < combiningClass a) (hq : ∀ a ∈ q.head?, combiningClass a ≤ cc) :
    ∃ b a, r = b ++ a ∧ (∀ x ∈ b, cc < combiningClass x) ∧
      (∀ x ∈ a, combiningClass x ≤ cc) ∧ b ≠ [] ∧
      insertMark combiningClass c cc (r ++ q) = b ++ c :: (a ++ q) := by
  induction r with
  | nil => exact absurd rfl hr
  | cons x r ih =>
    have hx : cc < combiningClass x := hhead x rfl
    have hone : ∀ y ∈ [x], cc < combiningClass y := fun y hy => by rwa [mem_singleton.1 hy]
    rw [pairwise_cons] at hsorted
    cases r with
    | nil =>
      refine ⟨[x], [], rfl, hone, by simp, cons_ne_nil _ _, ?_⟩
      cases q with
      | nil => rfl
      | cons y q => exact if_pos (hq y rfl)
    | cons y r =>
      by_cases hy : combiningClass y ≤ cc
      · refine ⟨[x], y :: r, rfl, hone, fun z hz => ?_, cons_ne_nil _ _, if_pos hy⟩
        rcases mem_cons.1 hz with rfl | hz
        · exact hy
        · exact ((pairwise_cons.1 hsorted.2).1 z hz).trans hy
      obtain ⟨b, a, hba, hb, ha, -, heq⟩ := ih (cons_ne_nil _ _) hsorted.2 fun z hz => by
        rw [head?_cons, mem_some] at hz
        rw [← hz]
        omega
      refine ⟨x :: b, a, by rw [hba]; rfl, fun z hz => ?_, ha, cons_ne_nil _ _, ?_⟩
      · rcases mem_cons.1 hz with rfl | hz
        · exact hx
        · exact hb z hz
      · show insertMark combiningClass c cc (x :: y :: (r ++ q)) = x :: (b ++ c :: (a ++ q))
        rw [insertMark, if_neg hy]
        exact congrArg (x :: ·) heq

/-- What has been collected from `l`: the runs before the last one, which is `run` and is stored in
`sorted`. -/
structure Collected (combiningClass : Character → ℕ) (l : List Character) (s : Collector)
    (pre run preOut sorted : List Character) :
    Prop where
  split : l = pre ++ run
  chars : s.chars.reverse = preOut ++ sorted
  ordered : Ordered combiningClass (preOut ++ sorted)
  before : SortsRuns combiningClass pre preOut
  last : Sorts combiningClass run sorted
  marks : ∀ c ∈ run, combiningClass c ≠ 0
  starter : ∀ c ∈ pre.getLast?, combiningClass c = 0
  starterOut : ∀ c ∈ preOut.getLast?, combiningClass c = 0
  previous : s.previousCombiningClass = (sorted.getLast?.map combiningClass).getD 0

variable {l sorted : List Character} {s : Collector}

theorem Collected.sorts {pre run preOut : List Character}
    (h : Collected combiningClass l s pre run preOut sorted) :
    SortsRuns combiningClass l s.chars.reverse := by
  rw [h.split, h.chars]
  exact h.before.append (h.last.runs h.marks) fun x hx _ _ => .inl (h.starter x hx)

theorem le_getLast (h : sorted.Pairwise fun a b => combiningClass a ≤ combiningClass b) :
    ∀ c ∈ sorted, combiningClass c ≤ (sorted.getLast?.map combiningClass).getD 0 := by
  intro c hc
  have hne := ne_nil_of_mem hc
  rw [getLast?_eq_some_getLast hne, map_some, getD_some]
  rw [← dropLast_append_getLast hne] at h hc
  rcases mem_append.1 hc with hc | hc
  · exact (pairwise_append.1 h).2.2 c hc _ (mem_singleton_self _)
  · exact (congrArg combiningClass (mem_singleton.1 hc)).le

theorem Ordered.concat {c : Character} (h : Ordered combiningClass l)
    (hc : ∀ x ∈ l.getLast?, combiningClass c = 0 ∨ combiningClass x ≤ combiningClass c) :
    Ordered combiningClass (l ++ [c]) := by
  refine isChain_append.2 ⟨h, .singleton c, fun x hx y hy => ?_⟩
  rw [head?_cons, mem_some] at hy
  rw [← hy]
  exact hc x hx

theorem collect_collected {pre run preOut : List Character}
    (h : Collected combiningClass l s pre run preOut sorted) (c : Character) :
    ∃ pre' run' preOut' sorted', Collected combiningClass (l ++ [c])
      (collect combiningClass s c) pre' run' preOut' sorted' := by
  obtain ⟨hsplit, hchars, hordered, hbefore, hlast, hmarks, hstarter, hstarterOut, hprevious⟩ := h
  have hle := le_getLast hlast.sorted
  rw [← hprevious] at hle
  unfold collect
  by_cases hmid : 0 < combiningClass c ∧ combiningClass c < s.previousCombiningClass
  · -- The mark goes into the last run, before the marks of greater classes.
    rw [if_pos hmid]
    have hne : sorted ≠ [] := by
      rintro rfl
      rw [hprevious] at hmid
      exact absurd hmid.2 (Nat.not_lt_zero _)
    have hrev : s.chars = sorted.reverse ++ preOut.reverse := by
      rw [← reverse_append, ← hchars, reverse_reverse]
    have hsorted : sorted.reverse.Pairwise fun a b => combiningClass b ≤ combiningClass a :=
      pairwise_reverse.2 hlast.sorted
    obtain ⟨b, a, hba, hb, ha, hbne, heq⟩ := insertMark_eq (c := c) (q := preOut.reverse)
      (fun h => hne (reverse_eq_nil_iff.1 h)) hsorted
      (fun x hx => by
        rw [head?_reverse, mem_def] at hx
        rw [hprevious, hx] at hmid
        exact hmid.2)
      fun x hx => by
        rw [head?_reverse] at hx
        rw [hstarterOut x hx]
        exact Nat.zero_le _
    have hab : sorted = a.reverse ++ b.reverse := by
      rw [← reverse_append, ← hba, reverse_reverse]
    have hinsert : Sorts combiningClass (run ++ [c]) (a.reverse ++ c :: b.reverse) := by
      rw [hab] at hlast
      exact hlast.insert (fun x hx => ha x (mem_reverse.1 hx)) fun x hx => hb x (mem_reverse.1 hx)
    refine ⟨pre, run ++ [c], preOut, a.reverse ++ c :: b.reverse, ?_, ?_, ?_, hbefore, hinsert,
      fun x hx => ?_, hstarter, hstarterOut, ?_⟩
    · rw [hsplit, append_assoc]
    · rw [hrev, heq]
      simp
    · unfold Ordered at *
      rw [hab, ← append_assoc] at hordered
      obtain ⟨hleft, hright, -⟩ := isChain_append.1 hordered
      rw [← append_assoc]
      refine isChain_append.2 ⟨hleft, isChain_cons.2 ⟨fun y hy => .inr ?_, hright⟩,
        fun x hx y hy => .inr ?_⟩
      · exact (hb y (mem_reverse.1 (mem_of_mem_head? hy))).le
      rw [head?_cons, mem_some] at hy
      rw [← hy]
      by_cases hanil : a.reverse = []
      · rw [hanil, append_nil] at hx
        rw [hstarterOut x hx]
        exact Nat.zero_le _
      · rw [getLast?_append_of_ne_nil _ hanil] at hx
        exact ha x (mem_reverse.1 (mem_of_mem_getLast? hx))
    · rcases mem_append.1 hx with hx | hx
      · exact hmarks x hx
      · rw [mem_singleton.1 hx]
        exact hmid.1.ne'
    · show s.previousCombiningClass = _
      have hbne' : b.reverse ≠ [] := fun h => hbne (reverse_eq_nil_iff.1 h)
      rw [hprevious, hab, getLast?_append_of_ne_nil _ hbne',
        getLast?_append_of_ne_nil _ (cons_ne_nil _ _), getLast?_cons_of_ne_nil hbne']
  · rw [if_neg hmid]
    by_cases hzero : combiningClass c = 0
    · -- A starter ends the run.
      have hall : SortsRuns combiningClass l (preOut ++ sorted) := by
        rw [hsplit]
        exact hbefore.append (hlast.runs hmarks) fun x hx _ _ => .inl (hstarter x hx)
      refine ⟨l ++ [c], [], preOut ++ sorted ++ [c], [], (append_nil _).symm, ?_, ?_,
        hall.append (sortsRuns_singleton _ c) ?_, sorts_nil _, by simp, by simp [hzero], by
        simp [hzero], hzero⟩
      · show (c :: s.chars).reverse = _
        rw [reverse_cons, hchars, append_nil]
      · rw [append_nil]
        exact hordered.concat fun _ _ => .inl hzero
      intro x _ y hy
      rw [head?_cons, mem_some] at hy
      rw [← hy]
      exact .inr hzero
    · -- A mark of the greatest class of the run.
      have hmax : s.previousCombiningClass ≤ combiningClass c := by omega
      refine ⟨pre, run ++ [c], preOut, sorted ++ [c], ?_, ?_, ?_, hbefore, ?_, fun x hx => ?_,
        hstarter, hstarterOut, ?_⟩
      · rw [hsplit, append_assoc]
      · show (c :: s.chars).reverse = _
        rw [reverse_cons, hchars, append_assoc]
      · rw [← append_assoc]
        refine hordered.concat fun x hx => .inr ?_
        by_cases hnil : sorted = []
        · rw [hnil, append_nil] at hx
          rw [hstarterOut x hx]
          exact Nat.zero_le _
        · rw [getLast?_append_of_ne_nil _ hnil] at hx
          exact (hle x (mem_of_mem_getLast? hx)).trans hmax
      · have hlast' : Sorts combiningClass run (sorted ++ []) := by rwa [append_nil]
        exact hlast'.insert (fun x hx => (hle x hx).trans hmax) (by simp)
      · rcases mem_append.1 hx with hx | hx
        · exact hmarks x hx
        · rwa [mem_singleton.1 hx]
      · show combiningClass c = _
        simp

theorem foldl_collected (combiningClass : Character → ℕ) (l : List Character) :
    ∃ pre run preOut sorted, Collected combiningClass l (l.foldl (collect combiningClass) ⟨[],
      0⟩) pre run preOut sorted := by
  induction l using List.reverseRecOn with
  | nil => exact ⟨[], [], [], [], rfl, rfl, .nil, sortsRuns_nil _,
    sorts_nil _, by simp, by simp, by simp, rfl⟩
  | append_singleton l c ih =>
    obtain ⟨_, _, _, _, h⟩ := ih
    rw [foldl_append]
    exact collect_collected h c

theorem decomposeString_sorts (combiningClass : Character → ℕ) (table : CharacterData)
    (string : List Character) (compatibility : Bool) (filter : Option (Character → Bool)) :
    SortsRuns combiningClass (decomposition table compatibility filter string)
      (decomposeString combiningClass table string compatibility filter) := by
  obtain ⟨_, _, _, _, h⟩ :=
    foldl_collected combiningClass (decomposition table compatibility filter string)
  exact h.sorts

theorem decomposeString_ordered (combiningClass : Character → ℕ) (table : CharacterData)
    (string : List Character) (compatibility : Bool) (filter : Option (Character → Bool)) :
    Ordered combiningClass (decomposeString combiningClass table string compatibility filter) := by
  obtain ⟨_, _, _, _, h⟩ :=
    foldl_collected combiningClass (decomposition table compatibility filter string)
  have hordered := h.ordered
  rw [← h.chars] at hordered
  exact hordered

/-! ## Decomposed strings -/

theorem decomposeChar_decomposed (char : Character) (compatibility : Bool) :
    ∀ d ∈ decomposeChar table char compatibility,
      ¬ Decomposes table.toDecompositionTable compatibility d := by
  fun_induction decomposeChar table char compatibility with
  | case1 char info _ ih =>
    intro d hd
    obtain ⟨e, -, he⟩ := mem_flatMap.1 hd
    exact ih e d he
  | case2 char compatibility info h hc =>
    rw [Bool.not_eq_true] at hc
    subst hc
    exact table.canonical char h
  | case3 char compatibility h =>
    intro d hd
    rwa [mem_singleton.1 hd]

theorem decomposeChar_of_decomposed {char : Character} {compatibility : Bool}
    (h : ¬ Decomposes table.toDecompositionTable compatibility char) :
    decomposeChar table char compatibility = [char] := by
  unfold decomposeChar
  exact dif_neg h

theorem decomposeChar_eq (char : Character) (compatibility : Bool) :
    decomposeChar table char compatibility =
    if Decomposes table.toDecompositionTable compatibility char then
      (charDecomposition table.toDecompositionTable char
        (table.charDecompositionInfo char).1).flatMap fun d =>
        decomposeChar table d compatibility
    else [char] := by
  split
  · rename_i h
    rw [decomposeChar, dif_pos h]
    cases compatibility with
    | true =>
      rw [dif_pos rfl, @List.flatMap_subtype _ _ _ _ _ (fun d => decomposeChar table d true)
        fun _ _ => rfl, List.unattach_attach]
    | false =>
      have hone : ∀ d ∈
        charDecomposition table.toDecompositionTable char (table.charDecompositionInfo char).1,
          decomposeChar table d false = [d] :=
          fun d hd => decomposeChar_of_decomposed (table.canonical char h d hd)
      rw [dif_neg Bool.false_ne_true, flatMap_congr hone, flatMap_singleton']
  · exact decomposeChar_of_decomposed ‹_›

/-- The entry of a character: a Hangul syllable has the jamo that it is composed of, and any other
character those of the table. -/
def Entry (data : DecompositionTable) (char : Character) (length : ℕ)
    (entry : List Character) : Prop :=
  if 0xac00 ≤ char ∧ char ≤ 0xd7a3 ∧ length ≠ 1 then
    ∃ l < 19, ∃ v < 21, ∃ t < 28, char = 0xac00 + (l * 21 + v) * 28 + t ∧
      entry = [0x1100 + l, 0x1161 + v] ++ if 0 < t then [0x11a7 + t] else []
  else entry.length = length ∧ ∀ i (h : i < entry.length), entry[i] = data.decompositions char i

theorem hangul_indices {char : ℕ} (hlow : 0xac00 ≤ char) (hhigh : char ≤ 0xd7a3) :
    (char - 0xac00) / (21 * 28) < 19 ∧ (char - 0xac00) % (21 * 28) / 28 < 21 ∧ char =
      0xac00 + ((char - 0xac00) / (21 * 28) * 21 + (char - 0xac00) % (21 * 28) / 28) * 28 +
        (char - 0xac00) % 28 := by
  omega

theorem charDecomposition_entry (data : DecompositionTable) (char : Character) (length : ℕ) :
    Entry data char length (charDecomposition data char length) := by
  unfold Entry charDecomposition
  by_cases hone : length = 1
  · rw [if_neg fun h => h.2.2 hone, if_pos hone]
    refine ⟨hone.symm, fun i h => ?_⟩
    obtain rfl : i = 0 := Nat.lt_one_iff.1 h
    rfl
  · rw [if_neg hone]
    by_cases hhangul : 0xac00 ≤ char ∧ char ≤ 0xd7a3
    · rw [if_pos ⟨hhangul.1, hhangul.2, hone⟩, if_pos hhangul]
      obtain ⟨hl, hv, heq⟩ := hangul_indices hhangul.1 hhangul.2
      exact ⟨_, hl, _, hv, _, Nat.mod_lt _ (by decide), heq, rfl⟩
    · rw [if_neg fun h => hhangul ⟨h.1, h.2.1⟩, if_neg hhangul]
      exact ⟨by simp, fun i h => by simp⟩

theorem decomposition_self {compatibility : Bool} {filter : Option (Character → Bool)}
    {string : List Character}
    (h : ∀ c ∈ l, c ∈ decomposition table compatibility filter string) :
    decomposition table compatibility filter l = l := by
  have hflat : l.flatMap (fun char => decomposeChar table char compatibility) = l := by
    have hone : ∀ c ∈ l, decomposeChar table c compatibility = [c] := fun c hc => by
      refine decomposeChar_of_decomposed ?_
      have hmem : c ∈ string.flatMap fun char => decomposeChar table char compatibility := by
        have := h c hc
        cases filter with
        | none => exact this
        | some f => exact (mem_filter.1 this).1
      obtain ⟨char, -, hchar⟩ := mem_flatMap.1 hmem
      exact decomposeChar_decomposed char compatibility c hchar
    rw [flatMap_congr hone]
    exact flatMap_singleton' l
  unfold decomposition at *
  rw [hflat]
  cases filter with
  | none => rfl
  | some f => exact filter_eq_self.2 fun c hc => (mem_filter.1 (h c hc)).2

theorem foldl_collect_of_ordered (h : Ordered combiningClass l)
    (hs : ∀ c ∈ l.head?, combiningClass c = 0 ∨ s.previousCombiningClass ≤ combiningClass c) :
    (l.foldl (collect combiningClass) s).chars = l.reverse ++ s.chars := by
  induction l generalizing s with
  | nil => rfl
  | cons c l ih =>
    have hpush : collect combiningClass s c = ⟨c :: s.chars, combiningClass c⟩ := by
      refine if_neg fun hc => ?_
      rcases hs c rfl with h0 | hle <;> omega
    rw [foldl_cons, hpush, ih h.tail fun d hd => (isChain_cons.1 h).1 d hd, reverse_cons,
      append_assoc]
    rfl

theorem SortsRuns.mem_iff {m : List Character} (h : SortsRuns combiningClass l m) (c : Character) :
    c ∈ m ↔ c ∈ l := by
  obtain ⟨rs, hrs, rfl⟩ := h
  have hflat : (runs combiningClass l).flatten = l := flatten_splitBy _ _
  rw [← hflat]
  generalize runs combiningClass l = ls at hrs
  induction hrs with
  | nil => rfl
  | cons hr _ ih => rw [flatten_cons, flatten_cons, mem_append, mem_append, hr.mem_iff,
    or_congr_right ih]

theorem decomposeString_idem (string : List Character) (compatibility : Bool)
    (filter : Option (Character → Bool)) :
    decomposeString combiningClass table
      (decomposeString combiningClass table string compatibility filter) compatibility
      filter = decomposeString combiningClass table string compatibility filter := by
  have hsorts := decomposeString_sorts combiningClass table string compatibility filter
  have hordered := decomposeString_ordered combiningClass table string compatibility filter
  generalize decomposeString combiningClass table string compatibility filter =
    l at hsorts hordered ⊢
  unfold decomposeString
  rw [decomposition_self fun c hc => (SortsRuns.mem_iff hsorts c).1 hc,
    foldl_collect_of_ordered hordered fun c _ => .inr (Nat.zero_le _), append_nil, reverse_reverse]

/-! ## Composition -/

section Composition
variable (combiningClass : Character → ℕ)
    (primaryComposition : Character → Character → Option Character)

/-- What is before the last starter, the starter, and what is behind it. -/
def lastStarter : List Character → Option (List Character × Character × List Character)
  | [] => none
  | c :: out =>
    match lastStarter out with
    | some (pre, starter, between) => some (c :: pre, starter, between)
    | none => if combiningClass c = 0 then some ([], c, out) else none

/-- The next character after `out`, by UAX#15: it goes into the last starter if nothing between them
blocks it and there is a composite. -/
def composeStep (out : List Character) (c : Character) : List Character :=
  match lastStarter combiningClass out with
  | none => out ++ [c]
  | some (pre, starter, between) =>
    if ∃ b ∈ between, combiningClass b = 0 ∨ ¬ combiningClass b < combiningClass c then out ++ [c]
    else
      match primaryComposition starter c with
      | some composite => pre ++ composite :: between
      | none => out ++ [c]

end Composition

variable {primaryComposition : Character → Character → Option Character}
    {pre between rest : List Character} {starter c : Character}

theorem lastStarter_marks (h : ∀ b ∈ between, combiningClass b ≠ 0) :
    lastStarter combiningClass between = none := by
  induction between with
  | nil => rfl
  | cons b between ih =>
    rw [lastStarter, ih fun x hx => h x (mem_cons_of_mem _ hx)]
    exact if_neg (h b mem_cons_self)

theorem lastStarter_eq (pre : List Character) (hs : combiningClass starter = 0)
    (h : ∀ b ∈ between, combiningClass b ≠ 0) :
    lastStarter combiningClass (pre ++ starter :: between) = some (pre, starter, between) := by
  induction pre with
  | nil =>
    rw [nil_append, lastStarter, lastStarter_marks h]
    exact if_pos hs
  | cons x pre ih =>
    rw [cons_append, lastStarter, ih]

theorem blocks_iff (h : ∀ b ∈ between, combiningClass b ≠ 0)
    (hordered : Ordered combiningClass between) :
    (∃ b ∈ between, combiningClass b = 0 ∨ ¬ combiningClass b < combiningClass c) ↔
      between ≠ [] ∧ combiningClass c ≤ (between.getLast?.map combiningClass).getD 0 := by
  have hsorted : between.Pairwise fun a b => combiningClass a ≤ combiningClass b := by
    have hchain : between.IsChain fun a b => combiningClass a ≤ combiningClass b :=
      List.IsChain.imp_of_mem_imp (fun a b _ hb hab => hab.resolve_left (h b hb)) hordered
    exact isChain_iff_pairwise.1 hchain
  constructor
  · rintro ⟨b, hb, hblocks⟩
    refine ⟨ne_nil_of_mem hb, ?_⟩
    have := le_getLast hsorted b hb
    have := h b hb
    omega
  · rintro ⟨hne, hle⟩
    rw [getLast?_eq_some_getLast hne, map_some, getD_some] at hle
    exact ⟨_, getLast_mem hne, .inr (by omega)⟩

/-- The character one step back is the starter or the last one between. -/
theorem previous_blocks_iff : (pre.length + between.length ≠ pre.length ∧
    combiningClass ((pre ++ starter :: (between ++ rest)).getD (pre.length + between.length) 0) ≥
      combiningClass c) ↔
      between ≠ [] ∧ combiningClass c ≤ (between.getLast?.map combiningClass).getD 0 := by
  cases between using List.reverseRecOn with
  | nil => simp
  | append_singleton between b =>
    have hsplit : pre ++ starter :: (between ++ [b] ++ rest) = (pre ++ starter :: between) ++
        b :: rest := by simp
    have hlen : pre.length + (between ++ [b]).length = (pre ++ starter :: between).length := by simp
    have hget : ((pre ++ starter :: between) ++ b :: rest).getD (pre ++ starter ::
        between).length 0 = b := by simp
    rw [hsplit, hlen, hget, getLast?_concat]
    simp

theorem composeLoop_eq (pre between : List Character)
    (hcomp : ∀ a b composite, primaryComposition a b = some composite →
      combiningClass composite = 0)
    (hs : combiningClass starter = 0) (hmarks : ∀ b ∈ between, combiningClass b ≠ 0)
    (hordered : Ordered combiningClass (between ++ rest)) :
    composeLoop combiningClass primaryComposition (pre ++ starter :: (between ++ rest)) pre.length
        (pre.length + between.length) (pre.length + between.length + 1) =
      rest.foldl (composeStep combiningClass primaryComposition) (pre ++ starter :: between) := by
  induction rest generalizing pre starter between with
  | nil =>
    unfold composeLoop
    rw [dif_neg (by rw [append_nil, length_append, length_cons]; omega), append_nil]
    rfl
  | cons c rest ih =>
    have hstep : (c :: rest).foldl (composeStep combiningClass primaryComposition) (pre ++
      starter :: between) =
        rest.foldl (composeStep combiningClass primaryComposition)
          (composeStep combiningClass primaryComposition (pre ++ starter :: between) c) := rfl
    have hlast := lastStarter_eq pre hs hmarks
    have hsplit : pre ++ starter :: (between ++ c :: rest) = (pre ++ starter :: between) ++
        c :: rest := by simp
    have hlen : pre.length + between.length + 1 = (pre ++ starter :: between).length := by
      simp; omega
    have hlt : pre.length + between.length + 1 <
        (pre ++ starter :: (between ++ c :: rest)).length := by simp; omega
    have hchar :
        (pre ++ starter :: (between ++ c :: rest))[pre.length + between.length + 1] = c := by
      simp only [hsplit, hlen]
      simp
    obtain ⟨hbetween, hrest, hjoin⟩ := isChain_append.1 hordered
    -- The character stays.
    have hstay : composeStep combiningClass primaryComposition (pre ++ starter :: between) c =
      pre ++ starter :: between ++ [c] →
        composeLoop combiningClass primaryComposition (pre ++ starter :: (between ++ c :: rest))
            (if combiningClass c = 0 then pre.length + between.length + 1 else pre.length)
            (pre.length + between.length + 1) (pre.length + between.length + 1 + 1) =
          (c :: rest).foldl (composeStep combiningClass primaryComposition) (pre ++ starter ::
            between) := fun hout => by
      rw [hstep, hout]
      by_cases hzero : combiningClass c = 0
      · rw [if_pos hzero, hsplit, hlen]
        exact ih (pre ++ starter :: between) [] hzero (by simp) hrest.tail
      rw [if_neg hzero]
      have := ih pre (between ++ [c]) hs (fun b hb => ?_) (by rwa [append_assoc])
      · rw [append_assoc] at this
        simpa [Nat.add_assoc] using this
      · rcases mem_append.1 hb with hb | hb
        · exact hmarks b hb
        · rwa [mem_singleton.1 hb]
    have hblocks := blocks_iff (c := c) hmarks hbetween
    unfold composeLoop
    rw [dif_pos hlt]
    rw [hchar]
    by_cases hb : ∃ b ∈ between, combiningClass b = 0 ∨ ¬ combiningClass b < combiningClass c
    · rw [if_pos (previous_blocks_iff.2 (hblocks.1 hb))]
      refine hstay ?_
      unfold composeStep
      rw [hlast]
      exact if_pos hb
    · rw [if_neg fun h => hb (hblocks.2 (previous_blocks_iff.1 h))]
      have hget : (pre ++ starter :: (between ++ c :: rest)).getD pre.length 0 = starter := by simp
      rw [hget]
      cases hcomposite : primaryComposition starter c with
      | none =>
        refine hstay ?_
        unfold composeStep
        rw [hlast]
        dsimp only
        rw [if_neg hb, hcomposite]
      | some composite =>
        have herase : ((pre ++ starter :: (between ++ c :: rest)).set pre.length composite).eraseIdx
            (pre.length + between.length + 1) = pre ++ composite :: (between ++ rest) := by
          have hset : (pre ++ starter :: (between ++ c :: rest)).set pre.length composite =
              (pre ++ composite :: between) ++ c :: rest := by simp
          have hlen' : pre.length + between.length + 1 = (pre ++ composite :: between).length := by
            simp; omega
          rw [hset, hlen', eraseIdx_append_of_length_le le_rfl, Nat.sub_self]
          simp
        have hout : composeStep combiningClass primaryComposition (pre ++ starter :: between) c =
            pre ++ composite :: between := by
          unfold composeStep
          rw [hlast]
          dsimp only
          rw [if_neg hb, hcomposite]
        dsimp only
        rw [herase, hstep, hout]
        refine ih pre between (hcomp _ _ _ hcomposite) hmarks (isChain_append.2 ⟨hbetween,
          hrest.tail, fun x hx y hy => ?_⟩)
        push Not at hb
        have hx' := hb x (mem_of_mem_getLast? hx)
        refine ((isChain_cons.1 hrest).1 y hy).imp_right fun hle => ?_
        exact hx'.2.le.trans hle

theorem canonicallyCompose_eq {list : List Character}
    (hcomp : ∀ a b composite, primaryComposition a b = some composite →
      combiningClass composite = 0)
    (hordered : Ordered combiningClass list) :
    canonicallyCompose combiningClass primaryComposition list =
      list.foldl (composeStep combiningClass primaryComposition) [] := by
  have hmarks : ∀ l : List Character, (∀ b ∈ l, combiningClass b ≠ 0) →
      l.foldl (composeStep combiningClass primaryComposition) [] = l := fun l => by
    induction l using List.reverseRecOn with
    | nil => exact fun _ => rfl
    | append_singleton l b ih =>
      intro h
      have hl : ∀ x ∈ l, combiningClass x ≠ 0 := fun x hx => h x (mem_append_left _ hx)
      rw [foldl_append, ih hl]
      show composeStep combiningClass primaryComposition l b = l ++ [b]
      unfold composeStep
      rw [lastStarter_marks hl]
  unfold canonicallyCompose
  cases hfind : list.findIdx? fun char => combiningClass char = 0 with
  | none =>
    rw [findIdx?_eq_none_iff] at hfind
    exact (hmarks list fun b hb => by simpa using hfind b hb).symm
  | some i =>
    obtain ⟨hlt, hi, hbefore⟩ := findIdx?_eq_some_iff_getElem.1 hfind
    have hsplit : list = list.take i ++ list[i] :: list.drop (i + 1) := by simp
    have hlen : (list.take i).length = i := length_take_of_le hlt.le
    have hpre : ∀ b ∈ list.take i, combiningClass b ≠ 0 := fun b hb => by
      obtain ⟨j, hj, rfl⟩ := getElem_of_mem hb
      rw [length_take] at hj
      have := hbefore j (by omega)
      simpa using this
    have hrest : Ordered combiningClass (list.drop (i + 1)) := List.IsChain.drop hordered (i + 1)
    have hs : combiningClass list[i] = 0 := by simpa using hi
    have hloop := composeLoop_eq (list.take i) [] hcomp hs (by simp) hrest
    rw [nil_append, ← hsplit, hlen] at hloop
    refine hloop.trans ?_
    conv_rhs => rw [hsplit, foldl_append, hmarks _ hpre, foldl_cons]
    congr 1
    unfold composeStep
    rw [lastStarter_marks hpre]

/-- Does a form take compatibility decompositions? -/
def Form.compatibility : Form → Bool
  | .nfd => false
  | .nfkd => true
  | .nfc => false
  | .nfkc => true

def Form.Composed : Form → Prop
  | .nfd => False
  | .nfkd => False
  | .nfc => True
  | .nfkc => True

instance (form : Form) : Decidable form.Composed :=
  match form with
  | .nfd => isFalse id
  | .nfkd => isFalse id
  | .nfc => isTrue trivial
  | .nfkc => isTrue trivial

theorem normalizeString_eq (string : List Character) (form : Form)
    (filter : Option (Character → Bool))
    (hcomp : ∀ a b composite, primaryComposition a b = some composite →
      combiningClass composite = 0) :
    normalizeString combiningClass table primaryComposition string form filter =
      let decomposed := decomposeString combiningClass table string form.compatibility filter
      if form.Composed then decomposed.foldl (composeStep combiningClass primaryComposition)
        [] else decomposed := by
  have hcompose := fun compatibility =>
    canonicallyCompose_eq hcomp
      (decomposeString_ordered combiningClass table string compatibility filter)
  cases form with
  | nfd => rfl
  | nfkd => rfl
  | nfc => exact hcompose false
  | nfkc => exact hcompose true

/-- Characters are decomposed by the tables and the arithmetic of the Hangul syllables until none
can be, the marks are put in order, and composition is that of UAX#15. -/
theorem normalization (combiningClass : Character → ℕ) :
    (∀ (table : CharacterData) (compatibility : Bool) (char : Character),
      (∀ length, Entry table.toDecompositionTable char length
        (charDecomposition table.toDecompositionTable char length)) ∧
        (decomposeChar table char compatibility =
          if Decomposes table.toDecompositionTable compatibility char then
            (charDecomposition table.toDecompositionTable char
              (table.charDecompositionInfo char).1).flatMap fun d =>
                decomposeChar table d compatibility
          else [char]) ∧
        ∀ d ∈ decomposeChar table char compatibility,
          ¬ Decomposes table.toDecompositionTable compatibility d) ∧
    (∀ (table : CharacterData) (string : List Character) (compatibility : Bool)
        (filter : Option (Character → Bool)),
      let decomposed := decomposeString combiningClass table string compatibility filter
      SortsRuns combiningClass
        ((string.flatMap fun char => decomposeChar table char compatibility).filter
          (filter.getD fun _ => true)) decomposed ∧
        Ordered combiningClass decomposed ∧
        decomposeString combiningClass table decomposed compatibility filter = decomposed) ∧
    ∀ primaryComposition : Character → Character → Option Character,
      (∀ a b composite, primaryComposition a b = some composite → combiningClass composite = 0) →
      (∀ list, Ordered combiningClass list →
        canonicallyCompose combiningClass primaryComposition list =
        list.foldl (composeStep combiningClass primaryComposition) []) ∧
      ∀ (table : CharacterData) (string : List Character) (form : Form)
          (filter : Option (Character → Bool)),
        normalizeString combiningClass table primaryComposition string form filter =
          let decomposed := decomposeString combiningClass table string form.compatibility filter
          if form.Composed then decomposed.foldl (composeStep combiningClass primaryComposition) []
            else decomposed := by
  refine ⟨fun table compatibility char => ?_, fun table string compatibility filter => ?_,
    fun primaryComposition hcomp => ?_⟩
  · exact ⟨charDecomposition_entry _ char, decomposeChar_eq char compatibility,
      decomposeChar_decomposed char compatibility⟩
  · have hfilter : decomposition table compatibility filter string =
        (string.flatMap fun char => decomposeChar table char compatibility).filter
          (filter.getD fun _ => true) := by
      unfold decomposition
      cases filter with
      | none => exact (filter_true _).symm
      | some filter => rfl
    rw [← hfilter]
    exact ⟨decomposeString_sorts combiningClass table string compatibility filter,
      decomposeString_ordered combiningClass table string compatibility filter,
      decomposeString_idem string compatibility filter⟩
  · exact ⟨fun list => canonicallyCompose_eq hcomp, fun table string form filter =>
      normalizeString_eq string form filter hcomp⟩

/-- The letter d with a dot above and below it, and a Hangul syllable. -/
def dotData : DecompositionTable where
  charDecompositionInfo c := if c = 0x1e0b ∨ c = 0x1e0d then (2, false) else if c = 0xac01 then (3,
    false) else (0, false)
  decompositions c i := if i = 0 then 0x64 else if c = 0x1e0b then 0x307 else 0x323

theorem dotData_entry {compatibility : Bool} {c : Character}
    (h : Decomposes dotData compatibility c) :
    ∀ d ∈ charDecomposition dotData c (dotData.charDecompositionInfo c).1,
      ¬ Decomposes dotData false d ∧ d < c := by
  have hc : c = 0x1e0b ∨ c = 0x1e0d ∨ c = 0xac01 := by
    by_contra hne
    obtain ⟨h1, h2, h3⟩ := by simpa only [not_or] using hne
    have hinfo : dotData.charDecompositionInfo c = (0, false) := by
      unfold dotData
      dsimp only
      rw [if_neg (not_or.2 ⟨h1, h2⟩), if_neg h3]
    have := h.1
    rw [hinfo] at this
    exact lt_irrefl _ this
  rcases hc with rfl | rfl | rfl <;> decide

def dotTable : CharacterData where
  toDecompositionTable := dotData
  rank c := c
  canonical _ h d hd := (dotData_entry h d hd).1
  simpler _ h d hd := (dotData_entry h d hd).2

def dotClass (c : Character) : ℕ := if c = 0x323 then 220 else if c = 0x307 then 230 else 0

def dotComposition (a b : Character) : Option Character :=
  if a = 0x64 ∧ b = 0x323 then some 0x1e0d else if a = 0x64 ∧ b = 0x307 then some 0x1e0b else none

theorem dotTable_decomposed : decomposeString dotClass dotTable [0x1e0b, 0x323, 0xac01] false none =
    [0x64, 0x323, 0x307, 0x1100, 0x1161, 0x11a8] := by
  unfold decomposeString decomposition
  simp [decomposeChar, Decomposes, dotTable, dotData, charDecomposition, collect, insertMark,
    dotClass, range_succ]

/-- The dot below comes first, and the letter takes it. -/
theorem normalization_dots : normalizeString dotClass dotTable dotComposition [0x1e0b, 0x323,
    0xac01] .nfc none = [0x1e0d, 0x307, 0x1100, 0x1161, 0x11a8] := by
  have hcomp : ∀ a b composite, dotComposition a b = some composite → dotClass composite = 0 := by
    intro a b composite h
    unfold dotComposition at h
    split_ifs at h
    · rw [← some_inj.1 h]
      rfl
    · rw [← some_inj.1 h]
      rfl
  refine (((normalization dotClass).2.2 dotComposition hcomp).2 dotTable _ .nfc none).trans ?_
  dsimp only [Form.compatibility]
  rw [dotTable_decomposed]
  decide

end Sbcl.Unicode
