import Sbcl.Lib.Chains
import Sbcl.Lib.StableSort
import Sbcl.Sequences.Sort

/-!
# The merge sort of lists

* `mergeListsLoop_spec`, `mergeStar_spec` : the conses of two lists are linked in the merged order;
* `SortedSegment`, `recur_spec` : a segment of a list is sorted in its conses, and nothing else is
  written;
* `stableSortList_spec`, `mergeLists_spec` : what comes out.
-/

namespace Sbcl.Sort

open Function Chains StableSort List
open List (cons_merge_cons_pos)

variable {α : Type} {test : α → α → Bool} {key : α → α} {h h' : Heap α}
    {bound head list list1 list2 tail tail1 tail2 rest : ℕ}
    {addrs a1 a2 : List ℕ}
variable {as : List ℕ} {a b c c1 c2 cons : ℕ}

/-- The order of the keys. -/
def keyLt (test : α → α → Bool) (key : α → α) (x y : α) : Bool := test (key x) (key y)

/-- The order of the conses by their elements. -/
def consLt (test : α → α → Bool) (key : α → α) (h : Heap α) (i j : ℕ) : Bool :=
  keyLt test key (h.car i) (h.car j)

/-- The conses of two lists, merged. -/
def merged (test : α → α → Bool) (key : α → α) (h : Heap α) (a1 a2 : List ℕ) : List ℕ :=
  a1.merge a2 (notAfter (consLt test key h))

theorem map_merged (test : α → α → Bool) (key : α → α) (h : Heap α) (a1 a2 : List ℕ) :
    (merged test key h a1 a2).map h.car = (a1.map h.car).merge (a2.map h.car)
      (notAfter (keyLt test key)) :=
  map_merge fun _ _ _ _ => rfl

theorem merged_cons_second (hlt : test (key (h.car c2)) (key (h.car c1)) = true) :
    merged test key h (c1 :: a1) (c2 :: a2) = c2 :: merged test key h (c1 :: a1) a2 :=
  cons_merge_cons_neg _ _ _ (by simp [notAfter, consLt, keyLt, hlt])

theorem merged_cons_first (hlt : ¬test (key (h.car c2)) (key (h.car c1)) = true) :
    merged test key h (c1 :: a1) (c2 :: a2) = c1 :: merged test key h a1 (c2 :: a2) :=
  cons_merge_cons_pos _ _ _ (by simp [notAfter, consLt, keyLt, hlt])

theorem merged_nil_right (test : α → α → Bool) (key : α → α) (h : Heap α) (a1 : List ℕ) :
    merged test key h a1 [] = a1 :=
  merge_right a1

theorem merged_nil_left (test : α → α → Bool) (key : α → α) (h : Heap α) (a2 : List ℕ) :
    merged test key h [] a2 = a2 :=
  nil_merge a2

theorem setCdr_self (h : Heap α) (cons list : ℕ) : (h.setCdr cons list).cdr cons = list :=
  update_self ..

theorem setCdr_of_ne {q : ℕ} (h : Heap α) (list : ℕ) (hq : q ≠ cons) :
    (h.setCdr cons list).cdr q = h.cdr q :=
  update_of_ne hq ..

theorem path_setCdr {s e cons list : ℕ} (hp : Path h.cdr s addrs e) (hcons : cons ∉ addrs) :
    Path (h.setCdr cons list).cdr s addrs e := hp.update hcons

theorem path_link (hp : Path h.cdr list as 0) (htail : tail ∉ c :: as) (hc : c ∉ as) :
    Path ((h.setCdr tail c).setCdr c list).cdr (((h.setCdr tail c).setCdr c list).cdr tail)
      (c :: as) 0 := by
  have hne : tail ≠ c := fun heq => htail (heq ▸ mem_cons_self)
  rw [setCdr_of_ne _ _ hne, setCdr_self, Path.cons_iff]
  refine ⟨rfl, ?_⟩
  rw [setCdr_self]
  exact (path_setCdr hp fun hm => htail (mem_cons_of_mem _ hm)).update hc

/-- What a merge does behind the tail. -/
structure Merges (h h' : Heap α) (tail : ℕ) (as : List ℕ) : Prop where
  car : h'.car = h.car
  path : Path h'.cdr (h'.cdr tail) as 0
  cdr : ∀ q ∉ tail :: as, h'.cdr q = h.cdr q

theorem merges_last (hp : Path h.cdr list as 0) (htail : tail ∉ c :: as) (hc : c ∉ as) :
    Merges h ((h.setCdr tail c).setCdr c list) tail (c :: as) := by
  refine ⟨rfl, path_link hp htail hc, fun q hq => ?_⟩
  rw [mem_cons, mem_cons, not_or, not_or] at hq
  rw [setCdr_of_ne _ _ hq.2.1, setCdr_of_ne _ _ hq.1]

theorem merges_cons (hm : Merges (h.setCdr tail c) h' c as) (htail : tail ∉ c :: as) :
    Merges h h' tail (c :: as) := by
  have hcdr : h'.cdr tail = c := (hm.cdr tail htail).trans (setCdr_self ..)
  refine ⟨hm.car, ?_, fun q hq => ?_⟩
  · rw [hcdr]
    exact Path.cons_iff.2 ⟨rfl, hm.path⟩
  · rw [mem_cons, not_or] at hq
    rw [hm.cdr q hq.2, setCdr_of_ne _ _ hq.1]

/-! ## The merge of two lists -/

theorem mergeListsLoop_spec {c1 c2 : ℕ} (h1 : Path h.cdr c1 (c1 :: a1) 0)
    (h2 : Path h.cdr c2 (c2 :: a2) 0)
    (hnodup : (tail :: (c1 :: a1 ++ c2 :: a2)).Nodup) (h0 : 0 ∉ c1 :: a1 ++ c2 :: a2)
    (hbound : (c1 :: a1).length + (c2 :: a2).length ≤ bound) :
    ∃ h', mergeListsLoop test key bound h tail c1 (key (h.car c1)) c2 (key (h.car c2)) = some h' ∧
      Merges h h' tail (merged test key h (c1 :: a1) (c2 :: a2)) := by
  induction bound generalizing h tail c1 c2 a1 a2 with
  | zero => simp at hbound
  | succ bound ih =>
    have hperm : (merged test key h (c1 :: a1) (c2 :: a2)).Perm (c1 :: a1 ++ c2 :: a2) :=
      merge_perm_append _
    obtain ⟨htail, hnodup'⟩ := nodup_cons.1 hnodup
    have htail' : tail ∉ merged test key h (c1 :: a1) (c2 :: a2) :=
      fun hm => htail (hperm.mem_iff.1 hm)
    obtain ⟨-, h1'⟩ := Path.cons_iff.1 h1
    obtain ⟨-, h2'⟩ := Path.cons_iff.1 h2
    rw [mergeListsLoop]
    dsimp only
    by_cases hlt : test (key (h.car c2)) (key (h.car c1)) = true
    · rw [if_pos hlt]
      rw [merged_cons_second hlt] at htail' ⊢
      have hne : c2 ≠ tail := fun heq => htail (by simp [heq])
      rw [setCdr_of_ne _ _ hne]
      cases a2 with
      | nil =>
        rw [merged_nil_right] at htail' ⊢
        rw [Path.nil_iff.1 h2', if_neg (not_not.2 rfl)]
        have hc : c2 ∉ c1 :: a1 := fun hm => disjoint_of_nodup_append hnodup' hm mem_cons_self
        exact ⟨_, rfl, merges_last h1 htail' hc⟩
      | cons d a2 =>
        obtain ⟨hd, -⟩ := Path.cons_iff.1 h2'
        rw [hd] at h2' ⊢
        have hd0 : d ≠ 0 := fun heq => h0 (by simp [heq])
        have hnodup2 : (c2 :: (c1 :: a1 ++ d :: a2)).Nodup := (nodup_middle.1 hnodup')
        rw [if_pos hd0]
        obtain ⟨h', hloop, hmerges⟩ := @ih (h.setCdr tail c2) c2 a1 a2 c1 d
          (path_setCdr h1 fun hm => htail (mem_append_left _ hm))
          (path_setCdr h2' fun hm => htail (mem_append_right _ (mem_cons_of_mem _ hm))) hnodup2
          (fun hm => h0 (by simp only [mem_append, mem_cons] at hm ⊢; tauto))
          (by simp only [length_cons] at hbound ⊢; omega)
        exact ⟨h', hloop, merges_cons hmerges htail'⟩
    · rw [if_neg hlt]
      rw [merged_cons_first hlt] at htail' ⊢
      have hne : c1 ≠ tail := fun heq => htail (by simp [heq])
      rw [setCdr_of_ne _ _ hne]
      cases a1 with
      | nil =>
        rw [merged_nil_left] at htail' ⊢
        rw [Path.nil_iff.1 h1', if_neg (not_not.2 rfl)]
        have hc : c1 ∉ c2 :: a2 := fun hm => disjoint_of_nodup_append hnodup' mem_cons_self hm
        exact ⟨_, rfl, merges_last h2 htail' hc⟩
      | cons d a1 =>
        obtain ⟨hd, -⟩ := Path.cons_iff.1 h1'
        rw [hd] at h1' ⊢
        have hd0 : d ≠ 0 := fun heq => h0 (by simp [heq])
        rw [if_pos hd0]
        obtain ⟨h', hloop, hmerges⟩ := @ih (h.setCdr tail c1) c1 a1 a2 d c2
          (path_setCdr h1' fun hm => htail (mem_append_left _ (mem_cons_of_mem _ hm)))
          (path_setCdr h2 fun hm => htail (mem_append_right _ hm)) hnodup'
          (fun hm => h0 (mem_cons_of_mem _ hm))
          (by simp only [length_cons] at hbound ⊢; omega)
        exact ⟨h', hloop, merges_cons hmerges htail'⟩

theorem mergeListsHead_spec (h1 : Path h.cdr list1 a1 0) (h2 : Path h.cdr list2 a2 0)
    (hne1 : a1 ≠ []) (hne2 : a2 ≠ [])
    (hnodup : (head :: (a1 ++ a2)).Nodup) (h0 : 0 ∉ a1 ++ a2)
    (hbound : a1.length + a2.length ≤ bound) :
    ∃ h' list, mergeListsHead test key bound h head list1 list2 = some (h', list) ∧ h'.car = h.car ∧
      Path h'.cdr list (merged test key h a1 a2) 0 ∧ ∀ q ∉ head :: (a1 ++ a2),
        h'.cdr q = h.cdr q := by
  obtain ⟨c1, a1, rfl⟩ := exists_cons_of_ne_nil hne1
  obtain ⟨c2, a2, rfl⟩ := exists_cons_of_ne_nil hne2
  obtain ⟨rfl, -⟩ := Path.cons_iff.1 h1
  obtain ⟨rfl, -⟩ := Path.cons_iff.1 h2
  obtain ⟨h', hloop, hcar, hpath, hcdr⟩ :=
    @mergeListsLoop_spec α test key h bound head a1 a2 list1 list2 h1 h2 hnodup h0 hbound
  have hperm : (merged test key h (list1 :: a1) (list2 :: a2)).Perm (list1 :: a1 ++ list2 :: a2) :=
    merge_perm_append _
  refine ⟨h', h'.cdr head, ?_, hcar, hpath, fun q hq => hcdr q fun hm => hq ?_⟩
  · unfold mergeListsHead
    rw [hloop]
    rfl
  · rcases mem_cons.1 hm with rfl | hm
    · exact mem_cons_self
    · exact mem_cons_of_mem _ (hperm.mem_iff.1 hm)

section Order
variable [IsStrictWeakOrder α fun a b => test a b = true]

instance : IsStrictWeakOrder α fun a b => keyLt test key a b = true :=
  inferInstanceAs (IsStrictWeakOrder α ((fun a b => test a b = true) on key))

instance : IsStrictWeakOrder ℕ fun i j => consLt test key h i j = true :=
  inferInstanceAs (IsStrictWeakOrder ℕ ((fun a b => keyLt test key a b = true) on h.car))

/-- Two sorted lists are linked in the merged order, in one write where the one precedes the other.
-/
theorem mergeStar_spec {size : ℕ} (h1 : Path h.cdr list1 a1 0) (h2 : Path h.cdr list2 a2 0)
    (htail1 : a1.getLast? = some tail1)
    (htail2 : a2.getLast? = some tail2) (hs1 : Sorted (consLt test key h) a1)
    (hs2 : Sorted (consLt test key h) a2)
    (hnodup : (head :: (a1 ++ a2)).Nodup) (h0 : 0 ∉ a1 ++ a2)
    (hbound : a1.length + a2.length ≤ bound) :
    ∃ h' v, mergeStar test key bound h head size list1 tail1 list2 tail2 rest = some (h', v) ∧
      h'.car = h.car ∧
      Path h'.cdr v.list (merged test key h a1 a2) 0 ∧ (merged test key h a1 a2).getLast? =
        some v.tail ∧ v.rest = rest ∧
      ∀ q ∉ head :: (a1 ++ a2), h'.cdr q = h.cdr q := by
  have hne1 : a1 ≠ [] := ne_nil_of_mem (mem_of_getLast? htail1)
  have hne2 : a2 ≠ [] := ne_nil_of_mem (mem_of_getLast? htail2)
  have hmem1 := mem_of_getLast? htail1
  have hmem2 := mem_of_getLast? htail2
  obtain ⟨-, hnodup'⟩ := nodup_cons.1 hnodup
  obtain ⟨hnodup1, hnodup2, hdisj⟩ := nodup_append'.1 hnodup'
  have hlast1 := hs1.last htail1
  have hlast2 := hs2.last htail2
  have hfirst1 : ∀ i ∈ a1, consLt test key h i list1 = false := by
    obtain ⟨c1, b1, rfl⟩ := exists_cons_of_ne_nil hne1
    obtain ⟨rfl, -⟩ := Path.cons_iff.1 h1
    exact hs1.head
  have hfirst2 : ∀ i ∈ a2, consLt test key h i list2 = false := by
    obtain ⟨c2, b2, rfl⟩ := exists_cons_of_ne_nil hne2
    obtain ⟨rfl, -⟩ := Path.cons_iff.1 h2
    exact hs2.head
  have hframe : ∀ {t : ℕ} (i : ℕ), t ∈ a1 ++ a2 → ∀ q ∉ head :: (a1 ++ a2),
      (h.setCdr t i).cdr q = h.cdr q := by
    intro t i ht q hq
    exact setCdr_of_ne _ _ fun heq => hq (mem_cons_of_mem _ (heq ▸ ht))
  unfold mergeStar
  by_cases hfast1 : size ≥ stableSortFastMergeLimit ∧
    ¬test (key (h.car list2)) (key (h.car tail1)) = true
  · -- The first list precedes the second.
    have hbefore : consLt test key h list2 tail1 = false := by simpa [consLt, keyLt] using hfast1.2
    have hmerged : merged test key h a1 a2 = a1 ++ a2 := by
      refine merge_of_notAfter fun i hi j hj => ?_
      exact notAfter_trans (notAfter_trans (hlast1 i hi) hbefore) (hfirst2 j hj)
    rw [if_pos hfast1, hmerged]
    refine ⟨_, _, rfl, rfl, h1.link htail1 hnodup1 h2 fun hm => hdisj hmem1 hm, ?_, rfl,
      hframe _ (mem_append_left _ hmem1)⟩
    rw [getLast?_append_of_ne_nil _ hne2]
    exact htail2
  · rw [if_neg hfast1]
    by_cases hfast2 : size ≥ stableSortFastMergeLimit ∧
      test (key (h.car tail2)) (key (h.car list1)) = true
    · -- The second list precedes the first, and has no equivalent elements.
      have hbefore : consLt test key h tail2 list1 = true := hfast2.2
      have hmerged : merged test key h a1 a2 = a2 ++ a1 := by
        refine merge_of_after fun i hi j hj => ?_
        exact lt_of_lt_of_notAfter (lt_of_notAfter_of_lt (hlast2 j hj) hbefore) (hfirst1 i hi)
      rw [if_pos hfast2, hmerged]
      refine ⟨_, _, rfl, rfl, h2.link htail2 hnodup2 h1 fun hm => hdisj hm hmem2, ?_, rfl,
        hframe _ (mem_append_right _ hmem2)⟩
      rw [getLast?_append_of_ne_nil _ hne1]
      exact htail1
    · obtain ⟨h', list, hmerge, hcar, hpath, hcdr⟩ :=
        @mergeListsHead_spec α test key h bound head list1 list2 a1 a2 h1 h2 hne1 hne2
        hnodup h0 hbound
      rw [if_neg hfast2, hmerge]
      refine ⟨h', _, rfl, hcar, hpath, ?_, rfl, hcdr⟩
      have hperm : (merged test key h a1 a2).Perm (a1 ++ a2) := merge_perm_append _
      have h0' : 0 ∉ merged test key h a1 a2 := fun hm => h0 (hperm.mem_iff.1 hm)
      split
      · rename_i hzero
        exact hpath.last h0' (hperm.mem_iff.2 (mem_append_left _ hmem1)) hzero
      rename_i hzero
      rcases getLast?_merge (notAfter (consLt test key h)) hne1 hne2 with hlast | hlast
      · exact absurd (hpath.next_last (hlast.trans htail1)) hzero
      · exact hlast.trans htail2

/-! ## The recursion -/

/-- The conses `addrs` of `h`, which end before `rest`, are sorted to the conses `addrs'` of `h'`.
-/
structure SortedSegment (test : α → α → Bool) (key : α → α) (head : ℕ) (addrs : List ℕ) (rest : ℕ)
    (h h' : Heap α) (v : Values)
    (addrs' : List ℕ) : Prop where
  perm : addrs'.Perm addrs
  path : Path h'.cdr v.list addrs' 0
  tail : addrs'.getLast? = some v.tail
  rest : v.rest = rest
  sorted : StablySorted (keyLt test key) (addrs.map h.car) (addrs'.map h'.car)
  car : ∀ q ∉ addrs, h'.car q = h.car q
  cdr : ∀ q ∉ head :: addrs, h'.cdr q = h.cdr q

omit [IsStrictWeakOrder α fun a b => test a b = true] in
theorem sortedSegment_cars {z : ℕ} {h1 : Heap α} (hpath : Path h.cdr list addrs rest)
    (hlast : addrs.getLast? = some z)
    (hnodup : addrs.Nodup) (hcdr : h1.cdr = h.cdr) (hcar : ∀ q ∉ addrs, h1.car q = h.car q)
    (hsorted : StablySorted (keyLt test key) (addrs.map h.car) (addrs.map h1.car)) :
    SortedSegment test key head addrs rest h (h1.setCdr z 0) ⟨list, z, h1.cdr z⟩ addrs := by
  refine ⟨.refl _, ?_, hlast, ?_, hsorted, hcar, fun q hq => ?_⟩
  · have := hpath.link hlast hnodup (.nil 0) not_mem_nil
    rw [append_nil] at this
    unfold Heap.setCdr
    rw [hcdr]
    exact this
  · rw [hcdr]
    exact hpath.next_last hlast
  · have hz : q ≠ z := by
      rintro rfl
      exact hq (mem_cons_of_mem _ (mem_of_getLast? hlast))
    rw [setCdr_of_ne _ _ hz, hcdr]

omit [IsStrictWeakOrder α fun a b => test a b = true] in
theorem sortedSegment_one (hpath : Path h.cdr list [a] rest) :
    SortedSegment test key head [a] rest h (h.setCdr list 0) ⟨list, list, h.cdr list⟩ [a] := by
  obtain rfl := (Path.cons_iff.1 hpath).1
  exact sortedSegment_cars hpath rfl (nodup_singleton _) rfl (fun _ _ => rfl)
    (stablySorted_singleton _)

theorem stablySorted_three {x y z p q : α} (hpq : StablySorted (keyLt test key) [x, y] [p, q]) :
    (test (key z) (key q) = true → test (key z) (key p) = true →
      StablySorted (keyLt test key) [x, y, z] [z, p, q]) ∧
    (test (key z) (key q) = true → ¬test (key z) (key p) = true →
      StablySorted (keyLt test key) [x, y, z] [p, z, q]) ∧
    (¬test (key z) (key q) = true → StablySorted (keyLt test key) [x, y, z] [p, q, z]) := by
  have hsorted := hpq.merge (stablySorted_singleton z)
  have hqp : keyLt test key q p = false := (pairwise_cons.1 hpq.sorted).1 q mem_cons_self
  refine ⟨fun hq hp => ?_, fun hq hp => ?_, fun hq => ?_⟩
  · rwa [cons_merge_cons_neg _ _ _ (by simp [notAfter, keyLt, hp]), merge_right] at hsorted
  · rwa [cons_merge_cons_pos _ _ _ (by simp [notAfter, keyLt, hp]),
      cons_merge_cons_neg _ _ _ (by simp [notAfter, keyLt, hq]), merge_right] at hsorted
  · have hp : keyLt test key z p = false := notAfter_trans hqp (by simpa [keyLt] using hq)
    rwa [cons_merge_cons_pos _ _ _ (by simp [notAfter, hp]),
      cons_merge_cons_pos _ _ _ (by simp [notAfter, keyLt, hq]), nil_merge] at hsorted

theorem stablySorted_two (x y : α) :
    StablySorted (keyLt test key) [x, y] (if test (key y) (key x) then [y, x] else [x, y]) := by
  have hsorted := (@stablySorted_singleton α (keyLt test key) x).merge (stablySorted_singleton y)
  split
  · rename_i hlt
    rwa [cons_merge_cons_neg _ _ _ (by simp [notAfter, keyLt, hlt]), merge_right] at hsorted
  · rename_i hlt
    rwa [cons_merge_cons_pos _ _ _ (by simp [notAfter, keyLt, hlt]), nil_merge] at hsorted

theorem sortedSegment_two (hpath : Path h.cdr list [a, b] rest) (hab : a ≠ b) :
    SortedSegment test key head [a, b] rest h (stableSortList2 test key h list).1
      (stableSortList2 test key h list).2 [a, b] := by
  obtain ⟨rfl, hpath'⟩ := Path.cons_iff.1 hpath
  obtain ⟨hb, -⟩ := Path.cons_iff.1 hpath'
  have hnodup : [list, b].Nodup := by simp [hab]
  have hsorted := @stablySorted_two α test key _ (h.car list) (h.car b)
  unfold stableSortList2
  dsimp only
  rw [hb]
  by_cases hlt : test (key (h.car b)) (key (h.car list)) = true
  · rw [if_pos hlt] at hsorted ⊢
    refine sortedSegment_cars hpath rfl hnodup rfl (fun q hq => ?_) ?_
    · simp only [mem_cons, not_mem_nil, or_false, not_or] at hq
      simp [Heap.setCar, hq.1, hq.2]
    · simpa [Heap.setCar, hab] using hsorted
  · rw [if_neg hlt] at hsorted ⊢
    exact sortedSegment_cars hpath rfl hnodup rfl (fun _ _ => rfl) hsorted

theorem sortedSegment_three (hpath : Path h.cdr list [a, b, c] rest) (hnodup : [a, b, c].Nodup) :
    SortedSegment test key head [a, b, c] rest h (stableSortList3 test key h list).1
      (stableSortList3 test key h list).2 [a, b, c] := by
  obtain ⟨rfl, hpath'⟩ := Path.cons_iff.1 hpath
  obtain ⟨rfl, hpath''⟩ := Path.cons_iff.1 hpath'
  obtain ⟨rfl, -⟩ := Path.cons_iff.1 hpath''
  have hne : list ≠ h.cdr list ∧ list ≠ h.cdr (h.cdr list) ∧ h.cdr list ≠ h.cdr (h.cdr list) := by
    simpa [and_assoc] using hnodup
  have hcars : ∀ {x y z : α}, StablySorted (keyLt test key) [h.car list, h.car (h.cdr list),
    h.car (h.cdr (h.cdr list))] [x, y, z] →
      let h' := ((h.setCar list x).setCar (h.cdr list) y).setCar (h.cdr (h.cdr list)) z
      SortedSegment test key head [list, h.cdr list,
        h.cdr (h.cdr list)] rest h (h'.setCdr (h.cdr (h.cdr list)) 0)
        ⟨list, h.cdr (h.cdr list), h'.cdr (h.cdr (h.cdr list))⟩ [list, h.cdr list,
          h.cdr (h.cdr list)] := by
    intro x y z hsorted
    refine sortedSegment_cars hpath rfl hnodup rfl (fun q hq => ?_) ?_
    · simp only [mem_cons, not_mem_nil, or_false, not_or] at hq
      simp [Heap.setCar, hq.1, hq.2.1, hq.2.2]
    · simpa [Heap.setCar, hne.1, hne.2.1, hne.2.2] using hsorted
  have htwo := @stablySorted_two α test key _ (h.car list) (h.car (h.cdr list))
  unfold stableSortList3
  dsimp only
  by_cases h1 : test (key (h.car (h.cdr list))) (key (h.car list)) = true
  · rw [if_pos h1] at htwo ⊢
    dsimp only
    obtain ⟨hzxy, hxzy, hxyz⟩ :=
      @stablySorted_three α test key _ _ _ (h.car (h.cdr (h.cdr list))) _ _ htwo
    by_cases h2 : test (key (h.car (h.cdr (h.cdr list)))) (key (h.car list)) = true
    · rw [if_pos h2]
      by_cases h3 : test (key (h.car (h.cdr (h.cdr list)))) (key (h.car (h.cdr list))) = true
      · rw [if_pos h3]
        exact hcars (hzxy h2 h3)
      · rw [if_neg h3]
        exact hcars (hxzy h2 h3)
    · rw [if_neg h2]
      exact hcars (hxyz h2)
  · rw [if_neg h1] at htwo ⊢
    obtain ⟨hzxy, hxzy, hxyz⟩ :=
      @stablySorted_three α test key _ _ _ (h.car (h.cdr (h.cdr list))) _ _ htwo
    by_cases h2 : test (key (h.car (h.cdr (h.cdr list)))) (key (h.car (h.cdr list))) = true
    · rw [if_pos h2]
      by_cases h3 : test (key (h.car (h.cdr (h.cdr list)))) (key (h.car list)) = true
      · rw [if_pos h3]
        exact hcars (hzxy h2 h3)
      · rw [if_neg h3]
        exact hcars (hxzy h2 h3)
    · rw [if_neg h2]
      exact hcars (hxyz h2)

theorem recur_spec {size : ℕ} (hpath : Path h.cdr list addrs rest) (hsize : addrs.length = size)
    (hpos : 0 < size) (hnodup : (head :: addrs).Nodup) (h0 : 0 ∉ addrs) (hbound : size ≤ bound) :
    ∃ h' v addrs', recur test key bound head h list size = some (h', v) ∧
      SortedSegment test key head addrs rest h h' v addrs' := by
  induction size using Nat.strongRecOn generalizing h list addrs rest with
  | ind size ih =>
    rw [recur]
    by_cases h3 : size > 3
    · rw [if_pos h3]
      dsimp only
      obtain ⟨b1, b2, rfl, hb1⟩ : ∃ b1 b2, addrs = b1 ++ b2 ∧ b1.length = size / 2 := by
        refine ⟨addrs.take (size / 2), addrs.drop (size / 2), (take_append_drop _ _).symm, ?_⟩
        rw [length_take]
        omega
      rw [length_append] at hsize
      obtain ⟨mid, hpath1, hpath2⟩ := Path.append_iff.1 hpath
      obtain ⟨hhead, hnodup'⟩ := nodup_cons.1 hnodup
      obtain ⟨hnodup1, hnodup2, hdisj⟩ := nodup_append'.1 hnodup'
      rw [mem_append, not_or] at hhead h0
      obtain ⟨h1, v1, b1', hrecur1, hs1⟩ := ih (size / 2) (by omega) hpath1 hb1 (by omega)
        (nodup_cons.2 ⟨hhead.1, hnodup1⟩) h0.1 (by omega)
      have hframe1 : ∀ q ∈ b2, h1.cdr q = h.cdr q := by
        intro q hq
        refine hs1.cdr q fun hm => ?_
        rcases mem_cons.1 hm with rfl | hm
        · exact hhead.2 hq
        · exact hdisj hm hq
      have hcar1 : b2.map h1.car = b2.map h.car :=
        map_congr_left fun q hq => hs1.car q fun hm => hdisj hm hq
      obtain ⟨h2, v2, b2', hrecur2, hs2⟩ :=
        ih (size - size / 2) (by omega) (hpath2.congr hframe1) (by omega) (by omega)
        (nodup_cons.2 ⟨hhead.2, hnodup2⟩) h0.2 (by omega)
      have hframe2 : ∀ q ∈ b1', h2.cdr q = h1.cdr q := by
        intro q hq
        rw [hs1.perm.mem_iff] at hq
        refine hs2.cdr q fun hm => ?_
        rcases mem_cons.1 hm with rfl | hm
        · exact hhead.1 hq
        · exact hdisj hq hm
      have hcar2 : b1'.map h2.car = b1'.map h1.car :=
        map_congr_left fun q hq => hs2.car q fun hm => hdisj (hs1.perm.mem_iff.1 hq) hm
      have hsorted1 : StablySorted (keyLt test key) (b1.map h.car) (b1'.map h2.car) :=
        hcar2 ▸ hs1.sorted
      have hsorted2 : StablySorted (keyLt test key) (b2.map h.car) (b2'.map h2.car) :=
        hcar1 ▸ hs2.sorted
      have hperm : (b1' ++ b2').Perm (b1 ++ b2) := hs1.perm.append hs2.perm
      obtain ⟨h3, v3, hmerge, hcar3, hpath3, htail3, hrest3, hcdr3⟩ :=
        @mergeStar_spec α test key h2 bound head v1.list v2.list
        v1.tail v2.tail v2.rest b1' b2' _ size (hs1.path.congr hframe2) hs2.path hs1.tail hs2.tail
        (pairwise_map.1 hsorted1.sorted) (pairwise_map.1 hsorted2.sorted)
          ((hperm.cons head).nodup_iff.2 hnodup)
        (fun hm => by simp [hperm.mem_iff, h0.1, h0.2] at hm)
        (by rw [hs1.perm.length_eq, hs2.perm.length_eq]; omega)
      refine ⟨h3, v3, merged test key h2 b1' b2', ?_, ?_⟩
      · rw [hrecur1]
        show (recur test key bound head h1 v1.rest (size - size / 2)).bind _ = _
        rw [hs1.rest, hrecur2]
        exact hmerge
      refine ⟨(merge_perm_append _).trans hperm, hpath3, htail3, hrest3.trans hs2.rest, ?_,
        fun q hq => ?_, fun q hq => ?_⟩
      · rw [hcar3, map_merged, map_append]
        exact hsorted1.merge hsorted2
      · rw [mem_append, not_or] at hq
        rw [hcar3, hs2.car q hq.2, hs1.car q hq.1]
      · have hq' : q ∉ head :: (b1' ++ b2') := fun hm => hq ((hperm.cons head).mem_iff.1 hm)
        rw [mem_cons, mem_append, not_or, not_or] at hq
        rw [hcdr3 q hq', hs2.cdr q (by simp [hq.1, hq.2.2]), hs1.cdr q (by simp [hq.1, hq.2.1])]
    · rw [if_neg h3]
      -- One, two or three conses.
      match addrs, hsize with
      | [a], rfl => exact ⟨_, _, [a], rfl, sortedSegment_one hpath⟩
      | [a, b], rfl =>
        have hab : a ≠ b := by
          rintro rfl
          simp at hnodup
        exact ⟨_, _, [a, b], rfl, sortedSegment_two hpath hab⟩
      | [a, b, c], rfl => exact ⟨_, _, [a, b, c], rfl,
        sortedSegment_three hpath (nodup_cons.1 hnodup).2⟩
      | [], hsize => simp at hsize; omega
      | _ :: _ :: _ :: _ :: _, hsize => simp only [length_cons] at hsize; omega

/-! ## The functions -/

/-- A proper list of these conses. -/
def ListAt (h : Heap α) (list : ℕ) (addrs : List ℕ) : Prop := Path h.cdr list addrs 0 ∧ 0 ∉ addrs

omit [IsStrictWeakOrder α fun a b => test a b = true] in
theorem listLength_spec (hlist : ListAt h list addrs) (hbound : addrs.length ≤ bound) :
    listLength h bound list = some addrs.length := by
  induction addrs generalizing list bound with
  | nil =>
    obtain rfl := Path.nil_iff.1 hlist.1
    cases bound <;> rfl
  | cons a addrs ih =>
    obtain ⟨⟨rfl, hpath⟩, h0⟩ := And.imp_left Path.cons_iff.1 hlist
    rw [mem_cons, not_or] at h0
    cases bound with
    | zero => simp at hbound
    | succ bound =>
      rw [listLength, if_neg (fun heq => h0.1 heq.symm),
        ih ⟨hpath, h0.2⟩ (Nat.le_of_succ_le_succ hbound)]
      rfl

theorem stableSortList_spec (hlist : ListAt h list addrs) (hhead : head ∉ addrs)
    (hbound : addrs.length ≤ bound) :
    ∃ h' list' addrs', stableSortList test key bound h head list = some (h', list') ∧
      ListAt h' list' addrs' ∧
      addrs'.Perm addrs ∧ StablySorted (keyLt test key) (addrs.map h.car) (addrs'.map h'.car) := by
  obtain ⟨hpath, h0⟩ := hlist
  unfold stableSortList
  by_cases hnil : list = 0
  · subst hnil
    rw [if_pos rfl]
    have haddrs : addrs = [] := by
      cases addrs with
      | nil => rfl
      | cons a addrs => exact absurd (by simp [(Path.cons_iff.1 hpath).1]) h0
    subst haddrs
    exact ⟨h, 0, [], rfl, ⟨.nil 0, not_mem_nil⟩, .refl _, stablySorted_of_sorted .nil⟩
  · rw [if_neg hnil]
    have hpath' : Path (h.setCdr head list).cdr list addrs 0 := path_setCdr hpath hhead
    have hpos := length_pos_iff.2 (hpath.ne_nil_of_ne hnil)
    obtain ⟨h', v, addrs', hrecur, hsorted⟩ :=
      @recur_spec α test key (h.setCdr head list) bound head list 0 addrs _ _ hpath' rfl hpos
      (nodup_cons.2 ⟨hhead, hpath.nodup h0⟩) h0 hbound
    refine ⟨h', v.list, addrs', ?_, ⟨hsorted.path, fun hm => h0 (hsorted.perm.mem_iff.1 hm)⟩,
      hsorted.perm, hsorted.sorted⟩
    show (listLength (h.setCdr head list) bound list).bind _ = _
    rw [listLength_spec ⟨hpath', h0⟩ hbound]
    show (recur test key bound head (h.setCdr head list) list addrs.length).bind _ = _
    rw [hrecur]
    rfl

theorem mergeLists_spec (h1 : ListAt h list1 a1) (h2 : ListAt h list2 a2) (hdisj : a1.Disjoint a2)
    (hhead : head ∉ a1 ++ a2)
    (hs1 : Sorted (keyLt test key) (a1.map h.car)) (hs2 : Sorted (keyLt test key) (a2.map h.car))
    (hbound : a1.length + a2.length ≤ bound) :
    ∃ h' list addrs, mergeLists test key bound h head list1 list2 = some (h', list) ∧
      ListAt h' list addrs ∧
      StablySorted (keyLt test key) (a1.map h.car ++ a2.map h.car) (addrs.map h'.car) := by
  have hsorted := stablySorted_merge hs1 hs2
  rw [← map_merged] at hsorted
  unfold mergeLists
  by_cases hnil1 : list1 = 0
  · have ha1 : a1 = [] := by
      cases a1 with
      | nil => rfl
      | cons a a1 => exact absurd (by simp [← hnil1, (Path.cons_iff.1 h1.1).1]) h1.2
    rw [ha1, merged_nil_left] at hsorted
    rw [if_pos hnil1, ha1]
    exact ⟨h, list2, a2, rfl, h2, hsorted⟩
  · rw [if_neg hnil1]
    by_cases hnil2 : list2 = 0
    · have ha2 : a2 = [] := by
        cases a2 with
        | nil => rfl
        | cons a a2 => exact absurd (by simp [← hnil2, (Path.cons_iff.1 h2.1).1]) h2.2
      rw [ha2, merged_nil_right] at hsorted
      rw [if_pos hnil2, ha2]
      exact ⟨h, list1, a1, rfl, h1, hsorted⟩
    · rw [if_neg hnil2]
      have hhead' := hhead
      rw [mem_append, not_or] at hhead'
      have h0 : 0 ∉ a1 ++ a2 := by simp [h1.2, h2.2]
      obtain ⟨h', list, hmerge, hcar, hpath, -⟩ :=
        @mergeListsHead_spec α test key (h.setCdr head 0) bound head list1 list2 a1 a2
        (path_setCdr h1.1 hhead'.1) (path_setCdr h2.1 hhead'.2) (h1.1.ne_nil_of_ne hnil1)
          (h2.1.ne_nil_of_ne hnil2)
        (nodup_cons.2 ⟨hhead, nodup_append'.2 ⟨h1.1.nodup h1.2, h2.1.nodup h2.2, hdisj⟩⟩) h0 hbound
      have hperm : (merged test key h a1 a2).Perm (a1 ++ a2) := merge_perm_append _
      refine ⟨h', list, merged test key h a1 a2, hmerge,
        ⟨hpath, fun hm => h0 (hperm.mem_iff.1 hm)⟩, ?_⟩
      rw [hcar]
      exact hsorted

end Order

end Sbcl.Sort
