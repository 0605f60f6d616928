import Sbcl.Sequences.ListSort
import Sbcl.Sequences.VectorSort

/-!
# Sorting of lists and of vectors

* `stable_sort` : both sorts, and both merges.
-/

namespace Sbcl.Sort

open Chains StableSort

variable {α : Type}

theorem keyLt_getD (pred : α → α → Bool) (key : Option (α → α)) :
    keyLt pred (key.getD id) = funcall2UsingKey pred key := by
  cases key <;> rfl

/-- Lists and vectors are stably sorted, to one sequence where their elements are the same, and two
sequences in order are merged. -/
theorem stable_sort (pred : α → α → Bool) [IsStrictWeakOrder α fun a b => pred a b = true]
    (key : Option (α → α)) :
    (∀ (h : Heap α) (head list : ℕ) (addrs : List ℕ) (bound : ℕ), ListAt h list addrs →
      head ∉ addrs → addrs.length ≤ bound →
      ∃ h' list' addrs', stableSortList pred (key.getD id) bound h head list = some (h', list') ∧
        ListAt h' list' addrs' ∧
        StablySorted (funcall2UsingKey pred key) (addrs.map h.car) (addrs'.map h'.car) ∧
        ∀ vector temp : ℕ → α, contents vector addrs.length = addrs.map h.car →
          contents (stableSortVector pred key addrs.length vector temp) addrs.length =
            addrs'.map h'.car) ∧
    (∀ (vectorLen : ℕ) (vector temp : ℕ → α),
      StablySorted (funcall2UsingKey pred key) (contents vector vectorLen)
      (contents (stableSortVector pred key vectorLen vector temp) vectorLen)) ∧
    (∀ (h : Heap α) (head list1 list2 : ℕ) (a1 a2 : List ℕ) (bound : ℕ), ListAt h list1 a1 →
      ListAt h list2 a2 →
      a1.Disjoint a2 → head ∉ a1 ++ a2 → Sorted (funcall2UsingKey pred key) (a1.map h.car) →
      Sorted (funcall2UsingKey pred key) (a2.map h.car) → a1.length + a2.length ≤ bound →
      ∃ h' list addrs, mergeLists pred (key.getD id) bound h head list1 list2 = some (h', list) ∧
        ListAt h' list addrs ∧
        StablySorted (funcall2UsingKey pred key) (a1.map h.car ++ a2.map h.car)
          (addrs.map h'.car)) ∧
    (∀ (vector1 vector2 result : ℕ → α) (length1 length2 : ℕ),
      Sorted (funcall2UsingKey pred key) (contents vector1 length1) →
      Sorted (funcall2UsingKey pred key) (contents vector2 length2) →
      StablySorted (funcall2UsingKey pred key)
        (contents vector1 length1 ++ contents vector2 length2)
        (contents (mergeVectors pred key vector1 length1 vector2 length2 result)
          (length1 + length2))) ∧
    ∀ l m m' : List α, StablySorted (funcall2UsingKey pred key) l m →
      StablySorted (funcall2UsingKey pred key) l m' → m = m' := by
  have hkey := keyLt_getD pred key
  have horder : IsStrictWeakOrder α fun a b => funcall2UsingKey pred key a b = true := by
    rw [← hkey]
    infer_instance
  refine ⟨?_, ?_, ?_, ?_, fun l m m' h h' => h.unique h'⟩
  · intro h head list addrs bound hlist hhead hbound
    obtain ⟨h', list', addrs', hsort, hlist', -, hsorted⟩ :=
      @stableSortList_spec α pred (key.getD id) h bound head list addrs _ hlist hhead hbound
    rw [hkey] at hsorted
    refine ⟨h', list', addrs', hsort, hlist', hsorted, fun vector temp hvector => ?_⟩
    have hvectorSorted := (@stableSortVector_spec α pred key _ addrs.length vector temp).1
    rw [hvector] at hvectorSorted
    exact hvectorSorted.unique hsorted
  · exact fun vectorLen vector temp => (stableSortVector_spec vectorLen vector temp).1
  · intro h head list1 list2 a1 a2 bound h1 h2 hdisj hhead hs1 hs2 hbound
    rw [← hkey] at *
    exact mergeLists_spec h1 h2 hdisj hhead hs1 hs2 hbound
  · exact fun vector1 vector2 result length1 length2 hs1 hs2 => mergeVectors_spec result hs1 hs2

/-- Three conses, of which the last two are equivalent by their tens. -/
def sampleHeap : Heap ℕ :=
  ⟨fun i => if i = 1 then 21 else if i = 2 then 12 else 11, fun i => if i < 3 then i + 1 else 0⟩

theorem stable_sort_tens : ∃ h' list' addrs',
    stableSortList (fun a b => decide (a < b)) (· / 10) 3 sampleHeap 4 1 = some (h', list') ∧
      ListAt h' list' addrs' ∧
      StablySorted (funcall2UsingKey (fun a b => decide (a < b)) (some (· / 10))) [21, 12, 11]
        (addrs'.map h'.car) := by
  have horder : IsStrictWeakOrder ℕ fun a b => decide (a < b) = true := by
    simp only [decide_eq_true_eq]
    exact { irrefl := Nat.lt_irrefl, trans := fun _ _ _ => Nat.lt_trans, incomp_trans := fun a b c h h' => by omega }
  have hlist : ListAt sampleHeap 1 [1, 2, 3] := ⟨.cons (.cons (.cons (.nil 0))), by decide⟩
  obtain ⟨h', list', addrs', hsort, hlist', hsorted, -⟩ :=
    (stable_sort (fun a b : ℕ => decide (a < b)) (some (· / 10))).1 sampleHeap 4
    1 [1, 2, 3] 3 hlist (by decide) (by decide)
  exact ⟨h', list', addrs', hsort, hlist', hsorted⟩

end Sbcl.Sort
