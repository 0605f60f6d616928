import Mathlib.Data.List.Basic
import Mathlib.Data.List.Pairwise

/-!
# Entry sequences sorted by key, as finite maps

A search tree is read through its in-order entry sequence. Over a strict total order `lt` on keys:

* `Sorted` : keys strictly increase;
* `below`, `above` : the entries on the two sides of a key; `insert`, `erase` are `below` and
  `above` put together again, and `*_node_lt`, `*_node_gt`, `*_node_eq` push them through a root `a
  ++ x :: b`;
* `lookup` : the finite map an entry sequence denotes, with `lookup_insert` and `lookup_erase`;
* `IsFloor`, `IsCeil` : the greatest entry not above a key and the least entry not below it.
-/

namespace SortedMap

open List
open List.Pairwise (filter of_cons)

variable {K E : Type} (lt : K → K → Prop) (key : E → K)

/-- Keys strictly increase. -/
def Sorted (l : List E) : Prop := l.Pairwise fun a b => lt (key a) (key b)

section Decidable
variable [DecidableRel lt]

def below (k : K) (l : List E) : List E := l.filter fun e => lt (key e) k

def above (k : K) (l : List E) : List E := l.filter fun e => lt k (key e)

/-- `e` put at its place, replacing an entry of the same key. -/
def insert (e : E) (l : List E) : List E := below lt key (key e) l ++ e :: above lt key (key e) l

def erase (k : K) (l : List E) : List E := below lt key k l ++ above lt key k l

/-- The entry of key `k`. -/
def lookup (k : K) (l : List E) : Option E := l.find? fun e => ¬ lt (key e) k ∧ ¬ lt k (key e)

end Decidable

/-- `r` is the greatest entry of `l` whose key is not above `k`. -/
def IsFloor (k : K) (l : List E) : Option E → Prop
  | none => ∀ e ∈ l, lt k (key e)
  | some r => r ∈ l ∧ ¬ lt k (key r) ∧ ∀ e ∈ l, ¬ lt k (key e) → ¬ lt (key r) (key e)

/-- `r` is the least entry of `l` whose key is not below `k`: the floor in the reversed order. -/
def IsCeil (k : K) (l : List E) : Option E → Prop := IsFloor (Function.swap lt) key k l

/-- `r` is the floor of `l`, or the fallback `best` when all of `l` is above `k`: what a descent
that carries the best entry so far returns. -/
def FloorOr (k : K) (l : List E) (best r : Option E) : Prop :=
  ((∃ e ∈ l, ¬ lt k (key e)) → IsFloor lt key k l r) ∧ ((∀ e ∈ l, lt k (key e)) → r = best)

def CeilOr (k : K) (l : List E) (best r : Option E) : Prop :=
  FloorOr (Function.swap lt) key k l best r

/-! ## Sorted sequences split at a root -/

theorem sorted_node {a b : List E} {x : E} :
    Sorted lt key (a ++ x :: b) ↔ Sorted lt key a ∧ Sorted lt key b ∧
    (∀ e ∈ a, lt (key e) (key x)) ∧
      (∀ e ∈ b, lt (key x) (key e)) ∧ ∀ e ∈ a, ∀ f ∈ b, lt (key e) (key f) := by
  simp only [Sorted, pairwise_append, pairwise_cons, mem_cons, forall_eq_or_imp]
  constructor
  · rintro ⟨ha, ⟨hxb, hb⟩, h⟩
    exact ⟨ha, hb, fun e he => (h e he).1, hxb, fun e he => (h e he).2⟩
  · rintro ⟨ha, hb, hax, hxb, hab⟩
    exact ⟨ha, ⟨hxb, hb⟩, fun e he => ⟨hax e he, hab e he⟩⟩

section Order
variable [IsStrictTotalOrder K lt]

theorem eq_of_not_lt {a b : K} (h : ¬ lt a b) (h' : ¬ lt b a) : a = b :=
  Std.Trichotomous.trichotomous a b h h'

variable [DecidableRel lt] {lt key} {a b : List E} {x : E} {k : K}

theorem below_node_lt (hs : Sorted lt key (a ++ x :: b)) (h : lt k (key x)) :
    below lt key k (a ++ x :: b) = below lt key k a := by
  obtain ⟨-, -, -, hxb, -⟩ := (sorted_node lt key).mp hs
  have hb : (x :: b).filter (fun e => decide (lt (key e) k)) = [] := by
    refine filter_eq_nil_iff.mpr fun e he hlt => ?_
    rcases mem_cons.mp he with rfl | he
    · exact asymm_of lt h (by simpa using hlt)
    · exact asymm_of lt (trans_of lt h (hxb e he)) (by simpa using hlt)
  rw [below, filter_append, hb, append_nil, below]

theorem above_node_lt (hs : Sorted lt key (a ++ x :: b)) (h : lt k (key x)) :
    above lt key k (a ++ x :: b) = above lt key k a ++ x :: b := by
  obtain ⟨-, -, -, hxb, -⟩ := (sorted_node lt key).mp hs
  have hb : (x :: b).filter (fun e => decide (lt k (key e))) = x :: b := by
    refine filter_eq_self.mpr fun e he => ?_
    rcases mem_cons.mp he with rfl | he
    · simpa using h
    · simpa using trans_of lt h (hxb e he)
  rw [above, filter_append, hb, above]

theorem below_node_gt (hs : Sorted lt key (a ++ x :: b)) (h : lt (key x) k) :
    below lt key k (a ++ x :: b) = a ++ x :: below lt key k b := by
  obtain ⟨-, -, hax, -, -⟩ := (sorted_node lt key).mp hs
  have ha : ∀ e ∈ a, lt (key e) k := fun e he => trans_of lt (hax e he) h
  rw [below, filter_append, filter_eq_self.mpr (by simpa using ha),
    filter_cons_of_pos (by simpa using h), below]

theorem above_node_gt (hs : Sorted lt key (a ++ x :: b)) (h : lt (key x) k) :
    above lt key k (a ++ x :: b) = above lt key k b := by
  obtain ⟨-, -, hax, -, -⟩ := (sorted_node lt key).mp hs
  have ha : ∀ e ∈ a, ¬ lt k (key e) := fun e he => asymm_of lt (trans_of lt (hax e he) h)
  rw [above, filter_append, filter_eq_nil_iff.mpr (by simpa using ha), nil_append,
    filter_cons_of_neg (by simpa using asymm_of lt h), above]

theorem below_node_eq (hs : Sorted lt key (a ++ x :: b)) :
    below lt key (key x) (a ++ x :: b) = a := by
  obtain ⟨-, -, hax, hxb, -⟩ := (sorted_node lt key).mp hs
  have hb : ∀ e ∈ x :: b, ¬ lt (key e) (key x) := by
    intro e he
    rcases mem_cons.mp he with rfl | he
    · exact irrefl_of lt _
    · exact asymm_of lt (hxb e he)
  rw [below, filter_append, filter_eq_self.mpr (by simpa using hax),
    filter_eq_nil_iff.mpr (by simpa using hb), append_nil]

theorem above_node_eq (hs : Sorted lt key (a ++ x :: b)) :
    above lt key (key x) (a ++ x :: b) = b := by
  obtain ⟨-, -, hax, hxb, -⟩ := (sorted_node lt key).mp hs
  have ha : ∀ e ∈ a, ¬ lt (key x) (key e) := fun e he => asymm_of lt (hax e he)
  rw [above, filter_append, filter_eq_nil_iff.mpr (by simpa using ha), nil_append,
    filter_cons_of_neg (by simpa using irrefl_of lt (key x)),
    filter_eq_self.mpr (by simpa using hxb)]

/-! ## Insertion and removal at a root -/

variable {e : E}

theorem insert_node_lt (hs : Sorted lt key (a ++ x :: b)) (h : lt (key e) (key x)) :
    insert lt key e (a ++ x :: b) = insert lt key e a ++ x :: b := by
  simp [insert, below_node_lt hs h, above_node_lt hs h]

theorem insert_node_gt (hs : Sorted lt key (a ++ x :: b)) (h : lt (key x) (key e)) :
    insert lt key e (a ++ x :: b) = a ++ x :: insert lt key e b := by
  simp [insert, below_node_gt hs h, above_node_gt hs h]

theorem insert_node_eq (hs : Sorted lt key (a ++ x :: b)) (h : key e = key x) :
    insert lt key e (a ++ x :: b) = a ++ e :: b := by
  simp [insert, h, below_node_eq hs, above_node_eq hs]

theorem erase_node_lt (hs : Sorted lt key (a ++ x :: b)) (h : lt k (key x)) :
    erase lt key k (a ++ x :: b) = erase lt key k a ++ x :: b := by
  simp [erase, below_node_lt hs h, above_node_lt hs h]

theorem erase_node_gt (hs : Sorted lt key (a ++ x :: b)) (h : lt (key x) k) :
    erase lt key k (a ++ x :: b) = a ++ x :: erase lt key k b := by
  simp [erase, below_node_gt hs h, above_node_gt hs h]

theorem erase_node_eq (hs : Sorted lt key (a ++ x :: b)) (h : k = key x) :
    erase lt key k (a ++ x :: b) = a ++ b := by
  simp [erase, h, below_node_eq hs, above_node_eq hs]

variable {l : List E}

omit [IsStrictTotalOrder K lt] in
theorem mem_below : e ∈ below lt key k l ↔ e ∈ l ∧ lt (key e) k := by
  simp [below]

omit [IsStrictTotalOrder K lt] in
theorem mem_above : e ∈ above lt key k l ↔ e ∈ l ∧ lt k (key e) := by
  simp [above]

theorem Sorted.insert (hs : Sorted lt key l) (e : E) :
    Sorted lt key (SortedMap.insert lt key e l) := by
  refine (sorted_node lt key).mpr ⟨filter _ hs, filter _ hs,
    fun f hf => (mem_below.mp hf).2, fun f hf => (mem_above.mp hf).2, fun f hf g hg => ?_⟩
  exact trans_of lt (mem_below.mp hf).2 (mem_above.mp hg).2

theorem Sorted.erase (hs : Sorted lt key l) (k : K) :
    Sorted lt key (SortedMap.erase lt key k l) := by
  refine pairwise_append.mpr ⟨filter _ hs, filter _ hs, fun f hf g hg => ?_⟩
  exact trans_of lt (mem_below.mp hf).2 (mem_above.mp hg).2

theorem erase_of_forall_ne (hs : Sorted lt key l)
    (h : ∀ e ∈ l, key e ≠ k) : SortedMap.erase lt key k l = l := by
  induction l with
  | nil => rfl
  | cons x l ih =>
    have hx : key x ≠ k := h x (by simp)
    have hs' : Sorted lt key ([] ++ x :: l) := hs
    by_cases hlt : lt k (key x)
    · simpa [SortedMap.erase, below, above] using erase_node_lt hs' hlt
    have hgt : lt (key x) k := by
      by_contra hgt
      exact hx (eq_of_not_lt lt hgt hlt)
    have := erase_node_gt hs' hgt
    simpa [ih (of_cons hs) fun e he => h e (by simp [he])] using this

/-! ## The finite map -/

theorem lookup_eq_some (hs : Sorted lt key l) :
    lookup lt key k l = some e ↔ e ∈ l ∧ key e = k := by
  constructor
  · intro h
    have hm := mem_of_find?_eq_some h
    have hp := find?_some h
    simp only [decide_eq_true_eq] at hp
    exact ⟨hm, eq_of_not_lt lt hp.1 hp.2⟩
  · rintro ⟨hm, rfl⟩
    obtain ⟨l₁, l₂, rfl⟩ := append_of_mem hm
    obtain ⟨-, -, hlt, -, -⟩ := (sorted_node lt key).mp hs
    rw [lookup, find?_append, find?_eq_none.mpr, Option.none_or, find?_cons_of_pos]
    · simp [irrefl_of lt (key e)]
    · intro f hf
      simp [hlt f hf]

theorem lookup_eq_none : lookup lt key k l = none ↔ ∀ e ∈ l, key e ≠ k := by
  rw [lookup, find?_eq_none]
  constructor
  · rintro h e he rfl
    simpa [irrefl_of lt (key e)] using h e he
  · intro h e he hp
    simp only [decide_eq_true_eq] at hp
    exact h e he (eq_of_not_lt lt hp.1 hp.2)

theorem lookup_node_lt (hs : Sorted lt key (a ++ x :: b)) (h : lt k (key x)) :
    lookup lt key k (a ++ x :: b) = lookup lt key k a := by
  obtain ⟨-, -, -, hxb, -⟩ := (sorted_node lt key).mp hs
  have hb : lookup lt key k (x :: b) = none := by
    refine lookup_eq_none.mpr fun e he hk => ?_
    subst hk
    rcases mem_cons.mp he with rfl | he
    · exact irrefl_of lt _ h
    · exact asymm_of lt h (hxb e he)
  rw [lookup, find?_append]
  exact (congrArg _ hb).trans (Option.or_none ..)

theorem lookup_node_gt (hs : Sorted lt key (a ++ x :: b)) (h : lt (key x) k) :
    lookup lt key k (a ++ x :: b) = lookup lt key k b := by
  obtain ⟨-, -, hax, -, -⟩ := (sorted_node lt key).mp hs
  have ha : lookup lt key k a = none := by
    refine lookup_eq_none.mpr fun e he hk => ?_
    subst hk
    exact asymm_of lt h (hax e he)
  rw [lookup, find?_append, ← lookup, ha, Option.none_or, find?_cons_of_neg (by simp [h]), lookup]

theorem lookup_node_eq (hs : Sorted lt key (a ++ x :: b)) (h : k = key x) :
    lookup lt key k (a ++ x :: b) = some x :=
  (lookup_eq_some hs).mpr ⟨by simp, h.symm⟩

theorem lookup_insert [DecidableEq K] (hs : Sorted lt key l) (e : E) :
    lookup lt key k (SortedMap.insert lt key e l) =
      if k = key e then some e else lookup lt key k l := by
  have hs' := hs.insert e
  split_ifs with h
  · exact (lookup_eq_some hs').mpr ⟨by simp [SortedMap.insert], h.symm⟩
  refine Option.ext fun f => ?_
  rw [lookup_eq_some hs', lookup_eq_some hs, SortedMap.insert, mem_append, mem_cons, mem_below,
    mem_above]
  constructor
  · rintro ⟨(⟨hf, -⟩ | rfl | ⟨hf, -⟩), hk⟩
    · exact ⟨hf, hk⟩
    · exact absurd hk.symm h
    · exact ⟨hf, hk⟩
  rintro ⟨hf, rfl⟩
  by_cases h1 : lt (key f) (key e)
  · exact ⟨Or.inl ⟨hf, h1⟩, rfl⟩
  · by_cases h2 : lt (key e) (key f)
    · exact ⟨Or.inr (Or.inr ⟨hf, h2⟩), rfl⟩
    · exact absurd (eq_of_not_lt lt h1 h2) h

theorem lookup_erase [DecidableEq K] (hs : Sorted lt key l) (k' : K) :
    lookup lt key k (SortedMap.erase lt key k' l) = if k = k' then none else lookup lt key k l := by
  split_ifs with h
  · subst h
    refine lookup_eq_none.mpr fun e he hk => ?_
    rcases mem_append.mp he with he | he
    · exact irrefl_of lt k (hk ▸ (mem_below.mp he).2)
    · exact irrefl_of lt k (hk ▸ (mem_above.mp he).2)
  · refine Option.ext fun f => ?_
    rw [lookup_eq_some (hs.erase k'), lookup_eq_some hs, SortedMap.erase, mem_append,
      mem_below, mem_above]
    constructor
    · rintro ⟨(⟨hf, -⟩ | ⟨hf, -⟩), hk⟩ <;> exact ⟨hf, hk⟩
    rintro ⟨hf, rfl⟩
    by_cases h1 : lt (key f) k'
    · exact ⟨Or.inl ⟨hf, h1⟩, rfl⟩
    · by_cases h2 : lt k' (key f)
      · exact ⟨Or.inr ⟨hf, h2⟩, rfl⟩
      · exact absurd (eq_of_not_lt lt h1 h2) h

end Order

/-! ## Nearest entries -/

section Nearest
variable {lt key} {a b l l' : List E} {x : E} {k : K} {best r : Option E}

theorem IsFloor.congr (h : ∀ e, e ∈ l ↔ e ∈ l') (hr : IsFloor lt key k l r) :
    IsFloor lt key k l' r := by
  cases r with
  | none => exact fun e he => hr e ((h e).mpr he)
  | some m => exact ⟨(h m).mp hr.1, hr.2.1, fun e he => hr.2.2 e ((h e).mpr he)⟩

theorem FloorOr.congr (h : ∀ e, e ∈ l ↔ e ∈ l') (hr : FloorOr lt key k l best r) :
    FloorOr lt key k l' best r := by
  refine ⟨fun ⟨e, he, hk⟩ => (hr.1 ⟨e, (h e).mpr he, hk⟩).congr h, fun hall => hr.2 fun e he => ?_⟩
  exact hall e ((h e).mp he)

theorem FloorOr.nil : FloorOr lt key k [] best best :=
  ⟨fun ⟨_, he, _⟩ => absurd he not_mem_nil, fun _ => rfl⟩

theorem FloorOr.isFloor (h : FloorOr lt key k l none r) : IsFloor lt key k l r := by
  by_cases hall : ∀ e ∈ l, lt k (key e)
  · rw [h.2 hall]
    exact hall
  · push Not at hall
    exact h.1 hall

theorem CeilOr.nil : CeilOr lt key k [] best best := FloorOr.nil

theorem CeilOr.isCeil (h : CeilOr lt key k l none r) : IsCeil lt key k l r := FloorOr.isFloor h

variable [IsStrictTotalOrder K lt]

theorem FloorOr.node_lt (hxb : ∀ e ∈ b, lt (key x) (key e)) (h : lt k (key x))
    (hr : FloorOr lt key k a best r) : FloorOr lt key k (a ++ x :: b) best r := by
  have habove : ∀ e ∈ x :: b, lt k (key e) := by
    intro e he
    rcases mem_cons.mp he with rfl | he
    · exact h
    · exact trans_of lt h (hxb e he)
  refine ⟨fun ⟨e, he, hk⟩ => ?_, fun hall => hr.2 fun e he => hall e (by simp [he])⟩
  have hea : e ∈ a := (mem_append.mp he).resolve_right fun he => hk (habove e he)
  have hf := hr.1 ⟨e, hea, hk⟩
  cases r with
  | none => exact absurd (hf e hea) hk
  | some m =>
    refine ⟨by simp [hf.1], hf.2.1, fun f hf' hfk => hf.2.2 f ?_ hfk⟩
    exact (mem_append.mp hf').resolve_right fun hf' => hfk (habove f hf')

theorem FloorOr.node_gt (hax : ∀ e ∈ a, lt (key e) (key x)) (hxb : ∀ e ∈ b, lt (key x) (key e))
    (h : lt (key x) k) (hr : FloorOr lt key k b (some x) r) :
    FloorOr lt key k (a ++ x :: b) best r := by
  refine ⟨fun _ => ?_, fun hall => absurd (hall x (by simp)) (asymm_of lt h)⟩
  by_cases hall : ∀ e ∈ b, lt k (key e)
  · rw [hr.2 hall]
    refine ⟨by simp, asymm_of lt h, fun e he hk => ?_⟩
    rcases mem_append.mp he with he | he
    · exact asymm_of lt (hax e he)
    · rcases mem_cons.mp he with rfl | he
      · exact irrefl_of lt _
      · exact absurd (hall e he) hk
  · push Not at hall
    have hf := hr.1 hall
    cases r with
    | none => exact absurd hf (by simpa [IsFloor] using hall)
    | some m =>
      have hxm : lt (key x) (key m) := hxb m hf.1
      refine ⟨by simp [hf.1], hf.2.1, fun e he hk => ?_⟩
      rcases mem_append.mp he with he | he
      · exact asymm_of lt (trans_of lt (hax e he) hxm)
      · rcases mem_cons.mp he with rfl | he
        · exact asymm_of lt hxm
        · exact hf.2.2 e he hk

theorem FloorOr.node_eq (hax : ∀ e ∈ a, lt (key e) (key x)) (hxb : ∀ e ∈ b, lt (key x) (key e))
    (h : k = key x) : FloorOr lt key k (a ++ x :: b) best (some x) := by
  subst h
  refine ⟨fun _ => ⟨by simp, irrefl_of lt _, fun e he hk => ?_⟩, fun hall => ?_⟩
  · rcases mem_append.mp he with he | he
    · exact asymm_of lt (hax e he)
    · rcases mem_cons.mp he with rfl | he
      · exact irrefl_of lt _
      · exact absurd (hxb e he) hk
  · exact absurd (hall x (by simp)) (irrefl_of lt _)

theorem mem_node_swap (e : E) : e ∈ b ++ x :: a ↔ e ∈ a ++ x :: b := by
  simp only [mem_append, mem_cons]
  tauto

theorem CeilOr.node_gt (hax : ∀ e ∈ a, lt (key e) (key x)) (h : lt (key x) k)
    (hr : CeilOr lt key k b best r) : CeilOr lt key k (a ++ x :: b) best r :=
  (FloorOr.node_lt hax h hr).congr mem_node_swap

theorem CeilOr.node_lt (hax : ∀ e ∈ a, lt (key e) (key x)) (hxb : ∀ e ∈ b, lt (key x) (key e))
    (h : lt k (key x)) (hr : CeilOr lt key k a (some x) r) : CeilOr lt key k (a ++ x :: b) best r :=
  (FloorOr.node_gt hxb hax h hr).congr mem_node_swap

theorem CeilOr.node_eq (hax : ∀ e ∈ a, lt (key e) (key x)) (hxb : ∀ e ∈ b, lt (key x) (key e))
    (h : k = key x) : CeilOr lt key k (a ++ x :: b) best (some x) :=
  (FloorOr.node_eq hxb hax h).congr mem_node_swap

end Nearest

end SortedMap
