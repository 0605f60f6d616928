import Mathlib.Data.List.Basic
import Mathlib.Order.RelClasses

/-!
# Stable sorting

For a test that is a strict weak order:

* `StablySorted lt l m` : `m` is `l` in order, where equivalent elements keep theirs
  (`StablySorted.unique`);
* `Rearranged lt l m` : the same but for the order, with the rules for appended lists;
* `stablySorted_merge` : two lists in order, merged.
-/

namespace StableSort

open List Bool

variable {α : Type*} {lt : α → α → Bool} {l l' m m' xs ys : List α} {a b c : α}

/-- Neither element comes before the other. -/
def equivalent (lt : α → α → Bool) (a b : α) : Bool := !lt a b && !lt b a

/-- The order for `List.merge`. -/
def notAfter (lt : α → α → Bool) (a b : α) : Bool := !lt b a

/-- The elements are the same, and equivalent ones are in the same order. -/
structure Rearranged (lt : α → α → Bool) (l m : List α) : Prop where
  perm : m.Perm l
  stable : ∀ a, m.filter (equivalent lt a) = l.filter (equivalent lt a)

/-- No element comes before one that precedes it. -/
def Sorted (lt : α → α → Bool) (l : List α) : Prop := l.Pairwise fun a b => lt b a = false

structure StablySorted (lt : α → α → Bool) (l m : List α) : Prop extends Rearranged lt l m where
  sorted : Sorted lt m

theorem Rearranged.refl (l : List α) : Rearranged lt l l := ⟨.refl l, fun _ => rfl⟩

theorem Rearranged.trans {n : List α} (h : Rearranged lt l m) (h' : Rearranged lt m n) :
    Rearranged lt l n :=
  ⟨h'.perm.trans h.perm, fun a => (h'.stable a).trans (h.stable a)⟩

theorem Rearranged.append (h : Rearranged lt l m) (h' : Rearranged lt l' m') :
    Rearranged lt (l ++ l') (m ++ m') := by
  refine ⟨h.perm.append h'.perm, fun a => ?_⟩
  rw [filter_append, filter_append, h.stable, h'.stable]

theorem Rearranged.length_eq (h : Rearranged lt l m) : m.length = l.length := h.perm.length_eq

theorem Rearranged.stablySorted (h : Rearranged lt l m) (h' : StablySorted lt m m') :
    StablySorted lt l m' :=
  ⟨h.trans h'.toRearranged, h'.sorted⟩

theorem stablySorted_of_sorted (h : Sorted lt l) : StablySorted lt l l := ⟨.refl l, h⟩

theorem stablySorted_singleton (a : α) : StablySorted lt [a] [a] :=
  stablySorted_of_sorted (pairwise_singleton ..)

section Order
variable [IsStrictWeakOrder α fun a b => lt a b = true]

theorem lt_asymm (h : lt a b = true) : lt b a = false := by
  rw [← not_eq_true]
  exact fun h' => irrefl_of (fun a b => lt a b = true) a (trans_of (fun a b => lt a b = true) h h')

theorem lt_trans (h : lt a b = true) (h' : lt b c = true) : lt a c = true :=
  trans_of (fun a b => lt a b = true) h h'

theorem lt_irrefl (a : α) : lt a a = false := by
  rw [← not_eq_true]
  exact irrefl_of (fun a b => lt a b = true) a

/-- An element that does not come before one that does not come before a third. -/
theorem notAfter_trans (h : lt b a = false) (h' : lt c b = false) : lt c a = false := by
  by_contra hca
  rw [not_eq_false] at hca
  have hbc : lt b c = false := by
    rw [← not_eq_true]
    intro hbc
    rw [lt_trans hbc hca] at h
    cases h
  have hab : lt a b = false := by
    rw [← not_eq_true]
    intro hab
    rw [lt_trans hca hab] at h'
    cases h'
  have := @IsStrictWeakOrder.incomp_trans α (fun a b => lt a b = true) _ c b a
    ⟨by simp [h'], by simp [hbc]⟩ ⟨by simp [h], by simp [hab]⟩
  exact this.1 hca

theorem lt_of_lt_of_notAfter (h : lt a b = true) (h' : lt c b = false) : lt a c = true := by
  by_contra hac
  rw [not_eq_true] at hac
  rw [notAfter_trans h' hac] at h
  cases h

theorem lt_of_notAfter_of_lt (h : lt b a = false) (h' : lt b c = true) : lt a c = true := by
  by_contra hac
  rw [not_eq_true] at hac
  rw [notAfter_trans hac h] at h'
  cases h'

theorem equivalent_self (a : α) : equivalent lt a a = true := by
  have hirrefl : lt a a = false := lt_irrefl a
  simp [equivalent, hirrefl]

theorem mem_iff_of_filter_eq (h : ∀ a, l.filter (equivalent lt a) = m.filter (equivalent lt a))
    (a : α) : a ∈ l ↔ a ∈ m := by
  have hmem : a ∈ l.filter (equivalent lt a) ↔ a ∈ m.filter (equivalent lt a) := by rw [h]
  simpa [mem_filter, equivalent_self] using hmem

theorem eq_of_filter_eq (hl : Sorted lt l) (hm : Sorted lt m)
    (h : ∀ a, l.filter (equivalent lt a) = m.filter (equivalent lt a)) : l = m := by
  induction l generalizing m with
  | nil =>
    refine (eq_nil_iff_forall_not_mem.2 fun a ha => ?_).symm
    exact not_mem_nil ((mem_iff_of_filter_eq h a).2 ha)
  | cons a l ih =>
    cases m with
    | nil => exact absurd ((mem_iff_of_filter_eq h a).1 mem_cons_self) not_mem_nil
    | cons b m =>
      obtain ⟨hal, hl⟩ := pairwise_cons.1 hl
      obtain ⟨hbm, hm'⟩ := pairwise_cons.1 hm
      have hba : lt b a = false := by
        rcases mem_cons.1 ((mem_iff_of_filter_eq h b).2 mem_cons_self) with rfl | hb
        · exact lt_irrefl b
        · exact hal b hb
      have hab : lt a b = false := by
        rcases mem_cons.1 ((mem_iff_of_filter_eq h a).1 mem_cons_self) with rfl | ha
        · exact lt_irrefl a
        · exact hbm a ha
      have hequiv : equivalent lt a b = true := by
        unfold equivalent
        rw [hab, hba]
        rfl
      have hhead := h a
      rw [filter_cons_of_pos (equivalent_self a), filter_cons_of_pos hequiv,
        List.cons.injEq] at hhead
      obtain ⟨rfl, -⟩ := hhead
      refine congrArg (a :: ·) (ih hl hm' ?_)
      intro c
      have hc := h c
      rw [filter_cons, filter_cons] at hc
      split at hc
      · exact (List.cons.inj hc).2
      · exact hc

theorem StablySorted.unique (h : StablySorted lt l xs) (h' : StablySorted lt l ys) : xs = ys :=
  eq_of_filter_eq h.sorted h'.sorted fun a => (h.stable a).trans (h'.stable a).symm

/-! ## Merging -/

theorem filter_merge (hl : Sorted lt l) (a : α) :
    (l.merge m (notAfter lt)).filter (equivalent lt a) = l.filter (equivalent lt a) ++
      m.filter (equivalent lt a) := by
  induction l generalizing m with
  | nil => simp
  | cons x l ihl =>
    obtain ⟨hx, hl'⟩ := pairwise_cons.1 hl
    induction m with
    | nil => simp
    | cons y m ihm =>
      rw [cons_merge_cons]
      split
      · by_cases hax : equivalent lt a x = true
        · rw [filter_cons_of_pos hax, ihl hl', filter_cons_of_pos hax, cons_append]
        · rw [filter_cons_of_neg hax, ihl hl', filter_cons_of_neg hax]
      rename_i hyx
      by_cases hay : equivalent lt a y = true
      · rw [filter_cons_of_pos hay, ihm]
        -- An element of the first list that is equivalent would come after this one.
        have hnone : (x :: l).filter (equivalent lt a) = [] := by
          rw [filter_eq_nil_iff]
          have hlt : lt y x = true := by simpa [notAfter] using hyx
          have hya : lt y a = false := by
            simp only [equivalent, and_eq_true, not_eq_true'] at hay
            exact hay.2
          have hax : lt a x = true := lt_of_notAfter_of_lt hya hlt
          intro z hz
          have haz : lt a z = true := by
            rcases mem_cons.1 hz with rfl | hz
            · exact hax
            · exact lt_of_lt_of_notAfter hax (hx z hz)
          simp [equivalent, haz]
        rw [hnone, nil_append, nil_append, filter_cons_of_pos hay]
      · rw [filter_cons_of_neg hay, ihm, filter_cons_of_neg hay]

theorem stablySorted_merge (hl : Sorted lt l) (hm : Sorted lt m) :
    StablySorted lt (l ++ m) (l.merge m (notAfter lt)) := by
  refine ⟨⟨merge_perm_append _, fun a => ?_⟩, ?_⟩
  · rw [filter_merge hl, filter_append]
  have hpairwise :=
    @List.pairwise_merge α (notAfter lt) (fun a b c hab hbc => ?_) (fun a b => ?_) l m
    (hl.imp fun h => by simpa [notAfter] using h) (hm.imp fun h => by simpa [notAfter] using h)
  · exact hpairwise.imp fun h => by simpa [notAfter] using h
  · simp only [notAfter, not_eq_true'] at hab hbc ⊢
    exact notAfter_trans hab hbc
  · cases hab : lt a b with
    | true => simp [notAfter, lt_asymm hab]
    | false => simp [notAfter, hab]

theorem StablySorted.merge (h : StablySorted lt l m) (h' : StablySorted lt l' m') :
    StablySorted lt (l ++ l') (m.merge m' (notAfter lt)) :=
  (h.toRearranged.append h'.toRearranged).stablySorted (stablySorted_merge h.sorted h'.sorted)

theorem Sorted.last {z : α} (h : Sorted lt l) (hz : l.getLast? = some z) :
    ∀ a ∈ l, lt z a = false := by
  obtain ⟨l, rfl⟩ := getLast?_eq_some_iff.1 hz
  intro a ha
  rcases mem_append.1 ha with ha | ha
  · exact (pairwise_append.1 h).2.2 a ha z mem_cons_self
  · rw [mem_singleton.1 ha]
    exact lt_irrefl z

theorem Sorted.head (h : Sorted lt (b :: l)) : ∀ a ∈ b :: l, lt a b = false := by
  intro a ha
  rcases mem_cons.1 ha with rfl | ha
  · exact lt_irrefl a
  · exact (pairwise_cons.1 h).1 a ha

end Order

theorem getLast?_merge (s : α → α → Bool) (hl : l ≠ []) (hm : m ≠ []) :
    (l.merge m s).getLast? = l.getLast? ∨ (l.merge m s).getLast? = m.getLast? := by
  induction l generalizing m with
  | nil => exact absurd rfl hl
  | cons x l ihl =>
    induction m with
    | nil => exact absurd rfl hm
    | cons y m ihm =>
      have hne : ∀ {xs ys : List α}, ys ≠ [] → xs.merge ys s ≠ [] ∧ ys.merge xs s ≠ [] := by
        intro xs ys hys
        have hpos := length_pos_iff.2 hys
        constructor <;> refine ne_nil_of_length_pos ?_ <;> rw [length_merge] <;> omega
      rw [cons_merge_cons]
      split
      · rw [getLast?_cons_of_ne_nil (hne hm).1]
        by_cases hl' : l = []
        · subst hl'
          rw [nil_merge]
          exact .inr rfl
        · rw [getLast?_cons_of_ne_nil hl']
          exact ihl hl' hm
      · rw [getLast?_cons_of_ne_nil (hne hl).2]
        by_cases hm' : m = []
        · subst hm'
          rw [merge_right]
          exact .inl rfl
        · rw [getLast?_cons_of_ne_nil hm']
          exact ihm hm'

theorem merge_of_notAfter (h : ∀ a ∈ l, ∀ b ∈ m, lt b a = false) :
    l.merge m (notAfter lt) = l ++ m :=
  merge_of_le fun a b ha hb => by simp [notAfter, h a ha b hb]

theorem merge_of_after (h : ∀ a ∈ l, ∀ b ∈ m, lt b a = true) :
    l.merge m (notAfter lt) = m ++ l := by
  induction m with
  | nil => simp
  | cons y m ih =>
    cases l with
    | nil => simp
    | cons x l =>
      have hyx : lt y x = true := h x mem_cons_self y mem_cons_self
      rw [cons_merge_cons_neg _ _ _ (by simp [notAfter, hyx]), cons_append,
        ih fun a ha b hb => h a ha b (mem_cons_of_mem _ hb)]

end StableSort
