import Sbcl.Lib.Memory
import Sbcl.Lib.StableSort
import Sbcl.Sequences.Sort

/-!
# The merge sort of vectors

* `mergeLoop_spec` : a merge puts the merged runs from its target index on, and nothing elsewhere;
* `Chunks n l m` : the list `m` is `l` with each run of `n` elements sorted by itself;
* `mergePass_spec` : a pass makes runs of twice the length;
* `stableSortVector_spec`, `mergeVectors_spec` : what comes out.
-/

namespace Sbcl.Sort

open Function Memory StableSort List

variable {α : Type} {pred : α → α → Bool} {key : Option (α → α)}
    {source source1 source2 target : ℕ → α} {xs ys : List α}
    {i j t n vectorLen : ℕ}

/-- Nothing is written outside of the `n` cells from `t` on. -/
def Frame (v w : ℕ → α) (t n : ℕ) : Prop := ∀ q, q < t ∨ t + n ≤ q → w q = v q

theorem frame_refl (v : ℕ → α) (t n : ℕ) : Frame v v t n := fun _ _ => rfl

theorem Frame.update {v w : ℕ → α} {x : α} (h : Frame (update v t x) w (t + 1) n) :
    Frame v w t (n + 1) := by
  intro q hq
  rw [h q (by omega), update_of_ne (by omega)]

theorem Frame.stored_cons {v w : ℕ → α} {x : α} (h : Frame (Function.update v t x) w (t + 1) n)
    (hs : Stored w (t + 1) xs) : Stored w t (x :: xs) := by
  refine Memory.stored_cons.2 ⟨?_, hs⟩
  rw [h t (.inl t.lt_succ_self), update_self]

theorem copyLoop_spec (h : Stored source i xs) :
    Stored (copyLoop source xs.length target i t) t xs ∧
    Frame target (copyLoop source xs.length target i t) t xs.length := by
  induction xs generalizing target i t with
  | nil => exact ⟨stored_nil, frame_refl _ _ _⟩
  | cons x xs ih =>
    obtain ⟨hx, hxs⟩ := stored_cons.1 h
    rw [length_cons, copyLoop, hx]
    obtain ⟨hstored, hframe⟩ := @ih (update target t x) (i + 1) (t + 1) hxs
    exact ⟨hframe.stored_cons hstored, hframe.update⟩

theorem mergeLoop_spec (h1 : Stored source1 i xs) (h2 : Stored source2 j ys) :
    Stored (mergeLoop pred key source1 source2 xs.length ys.length target i j t) t
        (xs.merge ys (notAfter (funcall2UsingKey pred key))) ∧
      Frame target (mergeLoop pred key source1 source2 xs.length ys.length target i j t) t
        (xs.length + ys.length) := by
  induction xs generalizing ys target i j t with
  | nil =>
    rw [nil_merge, length_nil, mergeLoop, Nat.zero_add]
    exact copyLoop_spec h2
  | cons x xs ihx =>
    induction ys generalizing target j t with
    | nil =>
      rw [merge_right, length_nil, length_cons, mergeLoop]
      · exact copyLoop_spec h1
      · exact Nat.succ_ne_zero _
    | cons y ys ihy =>
      obtain ⟨hx, hxs⟩ := stored_cons.1 h1
      obtain ⟨hy, hys⟩ := stored_cons.1 h2
      rw [length_cons, length_cons, mergeLoop, hx, hy, cons_merge_cons]
      by_cases hlt : funcall2UsingKey pred key y x
      · obtain ⟨hstored, hframe⟩ := @ihy (update target t y) (j + 1) (t + 1) hys
        rw [if_pos hlt, if_neg (by simp [notAfter, hlt])]
        exact ⟨hframe.stored_cons hstored, hframe.update⟩
      obtain ⟨hstored, hframe⟩ := @ihx (update target t x) _ (i + 1) j (t + 1) hxs h2
      rw [length_cons, show xs.length + (ys.length + 1) = xs.length + ys.length + 1 by ring]
        at hframe
      rw [if_neg hlt, if_pos (by simp [notAfter, hlt]), show xs.length + 1 + (ys.length + 1) =
        xs.length + ys.length + 1 + 1 by ring]
      exact ⟨hframe.stored_cons hstored, hframe.update⟩

/-! ## Runs -/

/-- The runs of `n` elements, of which the last may be shorter, are each sorted. -/
inductive Chunks (lt : α → α → Bool) (n : ℕ) : List α → List α → Prop
  | last {l m : List α} : l.length ≤ n → StablySorted lt l m → Chunks lt n l m
  | cons {l m ls ms : List α} : l.length = n → StablySorted lt l m → ls ≠ [] → Chunks lt n ls ms →
    Chunks lt n (l ++ ls) (m ++ ms)

section Chunks
variable {lt : α → α → Bool} {l m : List α}

theorem Chunks.length_eq (h : Chunks lt n l m) : m.length = l.length := by
  induction h with
  | last _ h => exact h.length_eq
  | cons _ h _ _ ih => rw [length_append, length_append, h.length_eq, ih]

/-- There is one run only. -/
theorem Chunks.stablySorted (h : Chunks lt n l m) (hn : l.length ≤ n) : StablySorted lt l m := by
  cases h with
  | last _ h => exact h
  | @cons l m ls ms hl h hls _ =>
    have := length_pos_iff.2 hls
    rw [length_append] at hn
    omega

theorem chunks_one (l : List α) : Chunks lt 1 l l := by
  induction l with
  | nil => exact .last (Nat.zero_le _) (stablySorted_of_sorted .nil)
  | cons a l ih =>
    by_cases hl : l = []
    · subst hl
      exact .last (le_refl _) (stablySorted_singleton a)
    · exact .cons rfl (stablySorted_singleton a) hl ih

end Chunks

variable [IsStrictWeakOrder α fun a b => funcall2UsingKey pred key a b = true]

theorem stableSortMergeVectors_spec {l1 l2 m1 m2 : List α} {start1 end1 end2 : ℕ}
    (h1 : Stored source start1 m1)
    (h2 : Stored source end1 m2) (hend1 : end1 = start1 + m1.length)
    (hend2 : end2 = end1 + m2.length)
    (hm1 : StablySorted (funcall2UsingKey pred key) l1 m1)
    (hm2 : StablySorted (funcall2UsingKey pred key) l2 m2) :
    ∃ m', StablySorted (funcall2UsingKey pred key) (l1 ++ l2) m' ∧
      Stored (stableSortMergeVectors pred key source target start1 end1 end2) start1 m' ∧
      Frame target (stableSortMergeVectors pred key source target start1 end1 end2) start1
        (m1.length + m2.length) := by
  obtain ⟨hstored, hframe⟩ :=
    @mergeLoop_spec α pred key source source target m1 m2 start1 end1 start1 h1 h2
  refine ⟨_, hm1.merge hm2, ?_⟩
  unfold stableSortMergeVectors
  rw [show end1 - start1 = m1.length by omega, show end2 - end1 = m2.length by omega]
  exact ⟨hstored, hframe⟩

theorem mergePass_spec {l m : List α} (hn : 0 < n) {unsorted : ℕ}
    (h : Chunks (funcall2UsingKey pred key) n l m)
    (hl : l ≠ []) (hstored : Stored source unsorted m) (hlen : unsorted + m.length = vectorLen) :
    ∃ m', Chunks (funcall2UsingKey pred key) (2 * n) l m' ∧
      Stored (mergePass pred key vectorLen n hn source target unsorted).1 unsorted m' ∧
      Frame target (mergePass pred key vectorLen n hn source target unsorted).1 unsorted m.length ∧
      unsorted ≤ (mergePass pred key vectorLen n hn source target unsorted).2 ∧
      ((mergePass pred key vectorLen n hn source target unsorted).2 = unsorted →
        l.length ≤ 2 * n) := by
  induction hsize : l.length using Nat.strong_induction_on generalizing l m target unsorted with
  | _ size ih =>
    subst hsize
    rw [mergePass]
    cases h with
    | last hle hm =>
      -- The last run is alone, and is copied.
      have hmlen := hm.length_eq
      obtain ⟨hcopied, hframe⟩ := @copyLoop_spec α source target m unsorted unsorted hstored
      rw [if_neg (by omega), show vectorLen - unsorted = m.length by omega]
      exact ⟨m, .last (by omega) hm, hcopied, hframe, le_refl _, fun _ => by omega⟩
    | @cons l1 m1 ls ms hl1 hm1 hls hrest =>
      have hm1len := hm1.length_eq
      have hlspos := length_pos_iff.2 hls
      have hmslen := hrest.length_eq
      rw [length_append] at hlen
      have hright := hstored.right
      rw [show unsorted + m1.length = unsorted + n by omega] at hright
      rw [if_pos (by omega)]
      cases hrest with
      | last hle hms =>
        -- The second run is the last.
        have hend2 :
            (if unsorted + n + n > vectorLen then vectorLen else unsorted + n + n) = vectorLen := by
          split <;> omega
        rw [hend2, if_pos rfl]
        obtain ⟨m', hm', hmerged, hframe⟩ :=
          @stableSortMergeVectors_spec α pred key source target _ _ _ _ _ unsorted
          (unsorted + n) vectorLen hstored.left hright (by omega) (by omega) hm1 hms
        rw [length_append, length_append]
        exact ⟨m', .last (by rw [length_append]; omega) hm', hmerged, hframe, le_refl _,
          fun _ => by omega⟩
      | @cons l2 m2 ls ms hl2 hm2 hls' hrest =>
        have hm2len := hm2.length_eq
        have hlspos' := length_pos_iff.2 hls'
        have hmslen' := hrest.length_eq
        rw [length_append] at hlen hmslen
        have hend2 : (if unsorted + n + n > vectorLen then vectorLen else unsorted + n + n) =
            unsorted + 2 * n := by
          split <;> omega
        rw [hend2, if_neg (by omega)]
        obtain ⟨m', hm', hmerged, hframe⟩ :=
          @stableSortMergeVectors_spec α pred key source target _ _ _ _ _ unsorted
          (unsorted + n) (unsorted + 2 * n) hstored.left hright.left (by omega) (by omega) hm1 hm2
        have hnext := hright.right
        rw [show unsorted + n + m2.length = unsorted + 2 * n by omega] at hnext
        have hm'len := hm'.length_eq
        rw [length_append] at hm'len
        obtain ⟨ms', hms', hpass, hpassFrame, hstart, -⟩ := @ih ls.length
          (by rw [length_append, length_append]; omega)
          (stableSortMergeVectors pred key source target unsorted (unsorted + n) (unsorted + 2 * n))
            _ _ (unsorted + 2 * n) hrest
          hls' hnext (by omega) rfl
        refine ⟨m' ++ ms', ?_, stored_append.2 ⟨?_, ?_⟩, ?_, by omega, fun heq => by omega⟩
        · rw [← append_assoc]
          exact .cons (by rw [length_append]; omega) hm' hls' hms'
        · exact hmerged.congr fun q hq => hpassFrame _ (.inl (by omega))
        · rw [show unsorted + m'.length = unsorted + 2 * n by omega]
          exact hpass
        · intro q hq
          rw [length_append, length_append] at hq
          rw [hpassFrame q (by omega), hframe q (by omega)]

theorem vectorMergeLoop_spec {l m : List α} (hn : 0 < n) {direction : Bool} {vector temp : ℕ → α}
    (h : Chunks (funcall2UsingKey pred key) n l m) (hl : l ≠ []) (hlen : m.length = vectorLen)
    (hstored : Stored (if direction then vector else temp) 0 m) :
    ∃ m', StablySorted (funcall2UsingKey pred key) l m' ∧
      Stored (vectorMergeLoop pred key vectorLen n hn direction vector temp) 0 m' ∧
      Frame vector (vectorMergeLoop pred key vectorLen n hn direction vector temp) 0 vectorLen := by
  induction hsize :
    vectorLen - n using Nat.strong_induction_on generalizing n m direction vector temp with
  | _ size ih =>
    subst hsize
    obtain ⟨m', hm', hpass, hframe, -, hstart⟩ :=
      @mergePass_spec α pred key (if direction then vector else temp)
      (if direction then temp else vector) n vectorLen _ l m hn 0 h hl hstored (by omega)
    have hm'len := hm'.length_eq
    have hmlen := h.length_eq
    rw [vectorMergeLoop]
    by_cases hzero : (mergePass pred key vectorLen n hn (if direction then vector else temp)
        (if direction then temp else vector) 0).2 = 0
    · rw [dif_pos hzero]
      have hsorted := hm'.stablySorted (hstart hzero)
      cases direction with
      | true =>
        obtain ⟨hcopied, hcopyFrame⟩ := @copyLoop_spec α _ vector m' 0 0 hpass
        rw [show m'.length = vectorLen by omega] at hcopied hcopyFrame
        exact ⟨m', hsorted, hcopied, hcopyFrame⟩
      | false =>
        rw [hlen] at hframe
        exact ⟨m', hsorted, hpass, hframe⟩
    · rw [dif_neg hzero]
      have hlt := mergePass_start pred key hn _ _ hzero
      cases direction with
      | true =>
        exact @ih (vectorLen - 2 * n) (by omega) (2 * n) m' (Nat.mul_pos Nat.two_pos hn) false
          vector _ hm' (by omega) hpass rfl
      | false =>
        obtain ⟨m'', hm'', hstored'', hframe''⟩ :=
          @ih (vectorLen - 2 * n) (by omega) (2 * n) m' (Nat.mul_pos Nat.two_pos hn)
          true _ temp hm' (by omega) hpass rfl
        exact ⟨m'', hm'', hstored'', fun q hq => (hframe'' q hq).trans (hframe q (by omega))⟩

/-- The elements of a vector. -/
def contents (vector : ℕ → α) (vectorLen : ℕ) : List α := (List.range vectorLen).map vector

omit [IsStrictWeakOrder α fun a b => funcall2UsingKey pred key a b = true] in
theorem contents_of_stored {vector : ℕ → α} {m : List α} (h : Stored vector 0 m) :
    contents vector m.length = m := by
  unfold contents
  apply ext_getElem
  · rw [length_map, length_range]
  intro q hq hq'
  have := h q _ (getElem?_eq_getElem hq')
  rw [Nat.zero_add] at this
  rw [getElem_map, getElem_range, this]

omit [IsStrictWeakOrder α fun a b => funcall2UsingKey pred key a b = true] in
theorem stored_contents (vector : ℕ → α) (vectorLen : ℕ) :
    Stored vector 0 (contents vector vectorLen) := by
  intro q x hq
  rw [contents, getElem?_map] at hq
  obtain ⟨i, hi, rfl⟩ := Option.map_eq_some_iff.1 hq
  obtain ⟨hlt, rfl⟩ := List.getElem?_eq_some_iff.1 hi
  rw [getElem_range, Nat.zero_add]

theorem stableSortVector_spec (vectorLen : ℕ) (vector temp : ℕ → α) :
    StablySorted (funcall2UsingKey pred key) (contents vector vectorLen)
      (contents (stableSortVector pred key vectorLen vector temp) vectorLen) ∧
    Frame vector (stableSortVector pred key vectorLen vector temp) 0 vectorLen := by
  have hlen : (contents vector vectorLen).length = vectorLen := by
    unfold contents
    rw [length_map, length_range]
  unfold stableSortVector
  split
  · refine ⟨stablySorted_of_sorted ?_, frame_refl _ _ _⟩
    rcases Nat.le_one_iff_eq_zero_or_eq_one.1 ‹_› with rfl | rfl
    · exact .nil
    · exact pairwise_singleton ..
  have hne : contents vector vectorLen ≠ [] := ne_nil_of_length_pos (by omega)
  obtain ⟨m', hm', hstored, hframe⟩ :=
    @vectorMergeLoop_spec α pred key 1 vectorLen _ _ _ Nat.one_pos true vector temp
    (chunks_one _) hne hlen (stored_contents vector vectorLen)
  have hcontents := contents_of_stored hstored
  rw [hm'.length_eq, hlen] at hcontents
  rw [hcontents]
  exact ⟨hm', hframe⟩

theorem mergeVectors_spec {vector1 vector2 : ℕ → α} {length1 length2 : ℕ} (result : ℕ → α)
    (h1 : Sorted (funcall2UsingKey pred key) (contents vector1 length1))
    (h2 : Sorted (funcall2UsingKey pred key) (contents vector2 length2)) :
    StablySorted (funcall2UsingKey pred key) (contents vector1 length1 ++ contents vector2 length2)
      (contents (mergeVectors pred key vector1 length1 vector2 length2 result)
        (length1 + length2)) := by
  have hlen : ∀ (vector : ℕ → α) (vectorLen : ℕ),
      (contents vector vectorLen).length = vectorLen := by
    intro vector vectorLen
    unfold contents
    rw [length_map, length_range]
  obtain ⟨hstored, -⟩ :=
    @mergeLoop_spec α pred key vector1 vector2 result _ _ 0 0 0 (stored_contents vector1 length1)
    (stored_contents vector2 length2)
  rw [hlen, hlen] at hstored
  have hcontents := contents_of_stored hstored
  rw [length_merge, hlen, hlen] at hcontents
  unfold mergeVectors
  rw [hcontents]
  exact stablySorted_merge h1 h2

end Sbcl.Sort
