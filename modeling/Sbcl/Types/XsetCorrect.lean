import Mathlib.Data.Finset.Card
import Sbcl.Types.Xset

/-!
# The sets of constants are finite sets

* `Represents` : the data of a set, as a list of its elements without a repetition; the lists are
  short and the tables long;
* `Heap.Good`, `Keeps` : every set is represented and has its table for itself; what an operation
  leaves alone;
* `addToXset_spec`, `xsetIntersection_spec`, `xsetUnion_spec` : the operations;
* `program_good`, `xsets_are_finsets` : in every heap of a program the operations are those on
  finite sets.
-/

namespace Sbcl.Xsets

open List Finset
open List (toFinset_cons)
open Option (bind_eq_bind bind_some map_some some_inj)

variable {α : Type} [DecidableEq α] {h h' h'' : Heap α} {xset : Xset α}
    {keys elts table : List α} {elt x : α}
    {a b i t : ℕ} {s u : Finset α}

/-! ## Tables -/

@[simp] theorem mem_puthash : x ∈ puthash table elt ↔ x ∈ table ∨ x = elt := by
  unfold puthash
  split
  · rename_i hmem
    refine ⟨Or.inl, ?_⟩
    rintro (hx | rfl)
    · exact hx
    · exact hmem
  · rw [List.mem_append, List.mem_singleton]

theorem nodup_puthash (hn : table.Nodup) : (puthash table elt).Nodup := by
  unfold puthash
  split
  · exact hn
  · rename_i hmem
    exact hn.append (nodup_singleton elt) (disjoint_singleton.mpr hmem)

theorem length_le_puthash : table.length ≤ (puthash table elt).length := by
  unfold puthash
  split
  · exact le_refl _
  · rw [length_append]
    exact Nat.le_add_right _ _

theorem mem_foldl_puthash : ∀ {table : List α}, x ∈ elts.foldl puthash table ↔
    x ∈ table ∨ x ∈ elts := by
  induction elts with
  | nil => simp
  | cons elt elts ih =>
    intro table
    rw [List.foldl_cons, ih, mem_puthash, List.mem_cons, or_assoc]

theorem nodup_foldl_puthash (elts : List α) : ∀ {table : List α}, table.Nodup →
    (elts.foldl puthash table).Nodup := by
  induction elts with
  | nil => exact id
  | cons elt elts ih => exact fun hn => ih (nodup_puthash hn)

/-! ## Representation -/

section Represents

omit [DecidableEq α]

/-- The elements of a set, in the order of `map-xset`. -/
inductive Represents (h : Heap α) : Xset α → List α → Prop
  | list {elts : List α} : elts.Nodup → elts.length ≤ xsetListSizeLimit →
      Represents h ⟨.list elts, .index elts.length⟩ elts
  | table {t : ℕ} {keys : List α} : h.tables[t]? = some keys → keys.Nodup →
    xsetListSizeLimit < keys.length →
      Represents h ⟨.table t, .index 0⟩ keys

/-- The table of a set. -/
def Xset.table? (xset : Xset α) : Option ℕ :=
  match xset.data with
  | .list _ => none
  | .table t => some t

theorem Represents.nodup (hr : Represents h xset keys) : keys.Nodup := by
  cases hr with
  | list hn _ => exact hn
  | table _ hn _ => exact hn

theorem Represents.elements_eq (hr : Represents h xset keys) :
    elements h xset.data = some keys := by
  cases hr with
  | list => rfl
  | table ht => exact ht

theorem Represents.xsetCount_eq (hr : Represents h xset keys) :
    xsetCount h xset = some keys.length := by
  cases hr with
  | list => rfl
  | table ht => exact congrArg (Option.map List.length) ht

theorem Represents.lt_of_table (hr : Represents h xset keys) (ht : xset.table? = some t) :
    t < h.tables.length := by
  cases hr with
  | list => cases ht
  | table hkeys =>
    cases ht
    exact (List.getElem?_eq_some_iff.mp hkeys).1

theorem Represents.congr (hr : Represents h xset keys)
    (ht : ∀ t, xset.table? = some t → h'.tables[t]? = h.tables[t]?) : Represents h' xset keys := by
  cases hr with
  | list hn hle => exact .list hn hle
  | table hkeys hn hlt => exact .table ((ht _ rfl).trans hkeys) hn hlt

end Represents

theorem Represents.hasElt_eq (hr : Represents h xset keys) (x : α) :
    hasElt h xset.data x = some (decide (x ∈ keys)) := by
  rw [hasElt, hr.elements_eq, map_some]

theorem Represents.subsetLoop_eq (hr : Represents h xset keys) (elts : List α) :
    subsetLoop h xset.data elts = some (decide (∀ x ∈ elts, x ∈ keys)) := by
  induction elts with
  | nil => simp [subsetLoop]
  | cons elt elts ih =>
    rw [subsetLoop, hr.hasElt_eq]
    by_cases helt : elt ∈ keys
    · simp [helt, ih]
    · simp [helt]

/-- A set with the elements `s` is at the address. -/
def Denotes (h : Heap α) (a : ℕ) (s : Finset α) : Prop :=
  ∃ xset keys, h.xsets[a]? = some xset ∧ Represents h xset keys ∧ keys.toFinset = s

/-- Every set is represented, and no two have the same table. -/
structure Heap.Good (h : Heap α) : Prop where
  denotes : ∀ a < h.xsets.length, ∃ s, Denotes h a s
  table_injective : ∀ {a b t : ℕ} {x y : Xset α}, h.xsets[a]? = some x → h.xsets[b]? = some y →
    x.table? = some t → y.table? = some t → a = b

/-- The set at the address is the same object with the same elements. -/
def Keeps (b : ℕ) (h h' : Heap α) : Prop :=
  h'.xsets[b]? = h.xsets[b]? ∧ ∀ s, Denotes h b s → Denotes h' b s

theorem Keeps.refl (b : ℕ) (h : Heap α) : Keeps b h h := ⟨rfl, fun _ hs => hs⟩

theorem Keeps.trans (h₁ : Keeps b h h') (h₂ : Keeps b h' h'') : Keeps b h h'' :=
  ⟨h₂.1.trans h₁.1, fun s hs => h₂.2 s (h₁.2 s hs)⟩

/-! ## Adding an element -/

/-- Only the set at the address, its table and new tables are written. -/
structure Changes (a : ℕ) (xset xset' : Xset α) (h h' : Heap α) : Prop where
  xsets : h'.xsets = h.xsets.set a xset'
  tables : ∀ t < h.tables.length, xset.table? ≠ some t → h'.tables[t]? = h.tables[t]?
  table : ∀ t, xset'.table? = some t → xset.table? = some t ∨ t = h.tables.length

section Changes

variable {xset' : Xset α} {keys' : List α} (hc : Changes a xset xset' h h')
    (hx : h.xsets[a]? = some xset)
include hc hx

theorem Changes.keeps (hg : h.Good) (hne : b ≠ a) : Keeps b h h' := by
  have hb : h'.xsets[b]? = h.xsets[b]? := by rw [hc.xsets, getElem?_set_ne hne.symm]
  refine ⟨hb, fun s => ?_⟩
  rintro ⟨y, keys, hy, hr, hs⟩
  exact ⟨y, keys, hb.trans hy, hr.congr fun t ht => hc.tables t (hr.lt_of_table ht) fun hxt =>
    hne (hg.table_injective hy hx ht hxt), hs⟩

omit [DecidableEq α] in
theorem Changes.get : h'.xsets[a]? = some xset' := by
  rw [hc.xsets, List.getElem?_set_self (List.getElem?_eq_some_iff.mp hx).1]

theorem Changes.good (hg : h.Good) (hr' : Represents h' xset' keys') : h'.Good := by
  -- the table of the set is its old one or a new one
  have hfresh : ∀ {b t : ℕ} {y : Xset α}, b ≠ a → h.xsets[b]? = some y → y.table? = some t →
      xset'.table? ≠ some t := by
    intro b t y hne hy ht ht'
    obtain ⟨s, y', keys, hy', hr, -⟩ := hg.denotes b (List.getElem?_eq_some_iff.mp hy).1
    cases hy.symm.trans hy'
    rcases hc.table t ht' with hxt | rfl
    · exact hne (hg.table_injective hy hx ht hxt)
    · exact lt_irrefl _ (hr.lt_of_table ht)
  refine ⟨fun b hb => ?_, fun {b c t y z} hy hz ht ht' => ?_⟩
  · rcases eq_or_ne b a with rfl | hne
    · exact ⟨_, xset', keys', hc.get hx, hr', rfl⟩
    · rw [hc.xsets, length_set] at hb
      obtain ⟨s, hs⟩ := hg.denotes b hb
      exact ⟨s, (hc.keeps hx hg hne).2 s hs⟩
  · rcases eq_or_ne b a with hb | hb <;> rcases eq_or_ne c a with hca | hca
    · exact hb.trans hca.symm
    · subst hb
      cases hy.symm.trans (hc.get hx)
      exact absurd ht (hfresh hca ((hc.keeps hx hg hca).1 ▸ hz) ht')
    · subst hca
      cases hz.symm.trans (hc.get hx)
      exact absurd ht' (hfresh hb ((hc.keeps hx hg hb).1 ▸ hy) ht)
    · exact hg.table_injective ((hc.keeps hx hg hb).1 ▸ hy) ((hc.keeps hx hg hca).1 ▸ hz) ht ht'

end Changes

theorem addToXset_changes (hx : h.xsets[a]? = some xset) (hr : Represents h xset keys) (elt : α) :
    ∃ h' xset' keys', addToXset elt a h = some h' ∧ Changes a xset xset' h h' ∧
      Represents h' xset' keys' ∧ keys'.toFinset = insert elt keys.toFinset := by
  have hself : h.xsets.set a xset = h.xsets := by
    obtain ⟨ha, rfl⟩ := List.getElem?_eq_some_iff.mp hx
    exact set_getElem_self ha
  cases hr with
  | @table t _ ht hn hlt =>
    have hlength := (List.getElem?_eq_some_iff.mp ht).1
    refine ⟨{ h with tables := h.tables.set t (puthash keys elt) }, ⟨.table t, .index 0⟩,
      puthash keys elt, ?_, ⟨hself.symm, fun u _ hu => ?_, fun u hu => .inl hu⟩,
      .table (List.getElem?_set_self hlength) (nodup_puthash hn) (hlt.trans_le length_le_puthash),
        ?_⟩
    · simp [addToXset, hx, ht]
    · exact getElem?_set_ne fun hut => hu (congrArg some hut)
    · ext x
      simp [or_comm]
  | list hn hle =>
    by_cases hmem : elt ∈ keys
    · refine ⟨h, _, keys, ?_, ⟨hself.symm, fun _ _ _ => rfl, fun t ht => .inl ht⟩, .list hn hle, ?_⟩
      · simp [addToXset, hx, hmem]
      · exact (insert_eq_of_mem (mem_toFinset.mpr hmem)).symm
    have hcons : (elt :: keys).Nodup := nodup_cons.mpr ⟨hmem, hn⟩
    rcases hle.lt_or_eq with hlt | heq
    · refine ⟨{ h with xsets := h.xsets.set a ⟨.list (elt :: keys), .index (keys.length + 1)⟩ }, _,
        elt :: keys, ?_, ⟨rfl, fun _ _ _ => rfl, fun t ht => ?_⟩, .list hcons hlt, toFinset_cons⟩
      · simp [addToXset, hx, hmem, hlt]
      · cases ht
    -- the list is full
    · have hperm : (keys.foldl puthash (puthash [] elt)).Perm (elt :: keys) := by
        refine (List.perm_ext_iff_of_nodup (nodup_foldl_puthash _ (nodup_puthash nodup_nil))
          hcons).mpr fun x => ?_
        rw [mem_foldl_puthash, mem_puthash, List.mem_cons]
        simp
      refine ⟨⟨h.xsets.set a ⟨.table h.tables.length, .index 0⟩,
        h.tables ++ [keys.foldl puthash (puthash [] elt)]⟩, _, _, ?_,
        ⟨rfl, fun t ht _ => getElem?_append_left ht, fun t ht => ?_⟩,
        .table (getElem?_concat_length ..) (hperm.nodup_iff.mpr hcons) ?_,
        (toFinset_eq_of_perm _ _ hperm).trans toFinset_cons⟩
      · simp [addToXset, hx, hmem, heq]
      · cases ht
        exact .inr rfl
      · rw [hperm.length_eq, length_cons, heq]
        exact Nat.lt_succ_self _

theorem addToXset_spec (hg : h.Good) (hs : Denotes h a s) (elt : α) :
    ∃ h', addToXset elt a h = some h' ∧ h'.Good ∧
    h'.xsets.length = h.xsets.length ∧ Denotes h' a (insert elt s) ∧ ∀ b ≠ a, Keeps b h h' := by
  obtain ⟨xset, keys, hx, hr, rfl⟩ := hs
  obtain ⟨h', xset', keys', hadd, hc, hr', hkeys⟩ := addToXset_changes hx hr elt
  exact ⟨h', hadd, hc.good hx hg hr', by rw [hc.xsets, length_set],
    ⟨xset', keys', hc.get hx, hr', hkeys⟩, fun b hb => hc.keeps hx hg hb⟩

/-! ## Union and intersection -/

/-- A heap with one set more than `h`, with the elements `s`. -/
structure Fresh (h : Heap α) (s : Finset α) (h' : Heap α) : Prop where
  good : h'.Good
  length : h'.xsets.length = h.xsets.length + 1
  keeps : ∀ b < h.xsets.length, Keeps b h h'
  denotes : Denotes h' h.xsets.length s

theorem newXset_fresh (hg : h.Good) {tables : List (List α)} (ht : h.tables <+: tables)
    (hown : ∀ t, xset.table? = some t → h.tables.length ≤ t)
    (hr : Represents ⟨h.xsets ++ [xset], tables⟩ xset keys) :
    Fresh h keys.toFinset ⟨h.xsets ++ [xset], tables⟩ := by
  obtain ⟨new, rfl⟩ := ht
  have hget : ∀ b < h.xsets.length, (h.xsets ++ [xset])[b]? = h.xsets[b]? :=
    fun b hb => getElem?_append_left hb
  have hlast : (h.xsets ++ [xset])[h.xsets.length]? = some xset := getElem?_concat_length ..
  have hkeeps : ∀ b < h.xsets.length, Keeps b h ⟨h.xsets ++ [xset], h.tables ++ new⟩ := by
    refine fun b hb => ⟨hget b hb, ?_⟩
    rintro s ⟨y, keys', hy, hry, hs⟩
    exact ⟨y, keys', (hget b hb).trans hy,
      hry.congr fun t ht => getElem?_append_left (hry.lt_of_table ht), hs⟩
  have hold : ∀ {b t : ℕ} {y : Xset α}, b < h.xsets.length → (h.xsets ++ [xset])[b]? = some y →
    y.table? = some t →
      xset.table? ≠ some t := by
    intro b t y hb hy ht ht'
    obtain ⟨s, y', keys', hy', hry, -⟩ := hg.denotes b hb
    cases ((hget b hb).symm.trans hy).symm.trans hy'
    exact absurd (hown t ht') (not_le.mpr (hry.lt_of_table ht))
  have hcase : ∀ {b : ℕ} {y : Xset α}, (h.xsets ++ [xset])[b]? = some y →
      b < h.xsets.length ∨ (b = h.xsets.length ∧ y = xset) := by
    intro b y hy
    have hb := (List.getElem?_eq_some_iff.mp hy).1
    rw [length_append, length_singleton] at hb
    rcases Nat.lt_succ_iff_lt_or_eq.mp hb with hb | rfl
    · exact .inl hb
    · exact .inr ⟨rfl, some_inj.mp (hy.symm.trans hlast)⟩
  refine ⟨⟨fun b hb => ?_, fun {b c t y z} hy hz ht ht' => ?_⟩, length_append, hkeeps,
    ⟨xset, keys, hlast, hr, rfl⟩⟩
  · rw [length_append, length_singleton] at hb
    rcases Nat.lt_succ_iff_lt_or_eq.mp hb with hb | rfl
    · obtain ⟨s, hs⟩ := hg.denotes b hb
      exact ⟨s, (hkeeps b hb).2 s hs⟩
    · exact ⟨_, xset, keys, hlast, hr, rfl⟩
  · rcases hcase hy with hb | ⟨rfl, rfl⟩ <;> rcases hcase hz with hc | ⟨rfl, rfl⟩
    · exact hg.table_injective ((hget b hb).symm.trans hy) ((hget c hc).symm.trans hz) ht ht'
    · exact absurd ht' (hold hb hy ht)
    · exact absurd ht (hold hc hz ht')
    · rfl

theorem allocXset_fresh (hg : h.Good) : Fresh h ∅ (allocXset h).2 :=
  newXset_fresh hg (prefix_refl _) (fun t ht => by cases ht) (.list nodup_nil (Nat.zero_le _))

/-- Adding the elements of a list that pass a test to the fresh set. -/
theorem foldlM_add_fresh {f : Heap α → α → Option (Heap α)} {p : α → Prop}
    [DecidablePred p] (elts : List α) (hf : ∀ h' elt, (∀ b < h.xsets.length, Keeps b h h') →
      f h' elt = if p elt then addToXset elt h.xsets.length h' else some h') :
    ∀ {s : Finset α} {h' : Heap α}, Fresh h s h' →
      ∃ h'', elts.foldlM f h' = some h'' ∧ Fresh h (s ∪ elts.toFinset.filter p) h'' := by
  induction elts with
  | nil =>
    intro s h' hfresh
    exact ⟨h', rfl, by simpa using hfresh⟩
  | cons elt elts ih =>
    intro s h' hfresh
    rw [foldlM_cons, hf h' elt hfresh.keeps]
    by_cases hp : p elt
    · obtain ⟨h₁, hadd, hgood, hlength, hdenotes, hkeeps⟩ :=
        addToXset_spec hfresh.good hfresh.denotes elt
      have hfresh₁ : Fresh h (insert elt s) h₁ := ⟨hgood, hlength.trans hfresh.length,
        fun b hb => (hfresh.keeps b hb).trans (hkeeps b hb.ne), hdenotes⟩
      obtain ⟨h₂, hrun, hfresh₂⟩ := ih hfresh₁
      refine ⟨h₂, by rw [if_pos hp, hadd]; exact hrun, ?_⟩
      rwa [toFinset_cons, filter_insert, if_pos hp, union_insert, ← insert_union]
    · obtain ⟨h₂, hrun, hfresh₂⟩ := ih hfresh
      refine ⟨h₂, by rw [if_neg hp]; exact hrun, ?_⟩
      rwa [toFinset_cons, filter_insert, if_neg hp]

theorem smallLarge_spec (hs : Denotes h a s) (hu : Denotes h b u) : ∃ c d v w,
    smallLarge a b h = some (c, d) ∧
    Denotes h c v ∧ Denotes h d w ∧ v.card ≤ w.card ∧ s ∪ u = v ∪ w ∧ s ∩ u = v ∩ w ∧ c ∈ [a, b] ∧
    d ∈ [a, b] := by
  obtain ⟨x, keys, hx, hr, rfl⟩ := id hs
  obtain ⟨y, keys', hy, hr', rfl⟩ := id hu
  have hcard := toFinset_card_of_nodup hr.nodup
  have hcard' := toFinset_card_of_nodup hr'.nodup
  have heq : smallLarge a b h = some (if keys.length < keys'.length then (a, b) else (b, a)) := by
    simp [smallLarge, hx, hy, hr.xsetCount_eq, hr'.xsetCount_eq]
  rw [heq]
  split
  · rename_i hlt
    exact ⟨a, b, _, _, rfl, hs, hu, by omega, rfl, rfl, by simp, by simp⟩
  · exact ⟨b, a, _, _, rfl, hu, hs, by omega, Finset.union_comm _ _,
      inter_comm _ _, by simp, by simp⟩

theorem Denotes.lt (hs : Denotes h a s) : a < h.xsets.length := by
  obtain ⟨x, keys, hx, -⟩ := hs
  exact (List.getElem?_eq_some_iff.mp hx).1

omit [DecidableEq α] in
theorem Represents.unique (hr : Represents h xset keys)
    (hr' : Represents h xset elts) : keys = elts :=
  some_inj.mp (hr.elements_eq.symm.trans hr'.elements_eq)

theorem Denotes.unique (hs : Denotes h a s) (hu : Denotes h a u) : s = u := by
  obtain ⟨x, keys, hx, hr, rfl⟩ := hs
  obtain ⟨y, keys', hy, hr', rfl⟩ := hu
  cases hx.symm.trans hy
  rw [hr.unique hr']

theorem Keeps.denotes_iff (hk : Keeps a h h') (hg : h.Good) (ha : a < h.xsets.length) :
    Denotes h' a s ↔ Denotes h a s := by
  refine ⟨fun hs => ?_, hk.2 s⟩
  obtain ⟨u, hu⟩ := hg.denotes a ha
  rwa [hs.unique (hk.2 u hu)]

theorem xsetIntersection_spec (hg : h.Good) (hs : Denotes h a s) (hu : Denotes h b u) :
    ∃ h', xsetIntersection a b h = some (h.xsets.length, h') ∧ Fresh h (s ∩ u) h' := by
  have hfresh := allocXset_fresh hg
  obtain ⟨c, d, v, w, hsl, hv, hw, -, -, hinter, -, hd⟩ :=
    smallLarge_spec ((hfresh.keeps a hs.lt).2 s hs) ((hfresh.keeps b hu.lt).2 u hu)
  have hd : d < h.xsets.length := by
    rcases mem_pair.mp hd with rfl | rfl
    · exact hs.lt
    · exact hu.lt
  have hwd := ((hfresh.keeps d hd).denotes_iff hg hd).mp hw
  obtain ⟨x, keys, hx, hr, rfl⟩ := hv
  obtain ⟨y, -, hy, -⟩ := id hw
  have hmem : ∀ h' elt, (∀ b < h.xsets.length, Keeps b h h') →
      hasElt h' y.data elt = some (decide (elt ∈ w)) := by
    intro h' elt hkeeps
    have hy' := ((hkeeps d hd).1.trans (hfresh.keeps d hd).1.symm).trans hy
    obtain ⟨z, keys', hz, hrz, rfl⟩ := (hkeeps d hd).2 w hwd
    cases hz.symm.trans hy'
    rw [hrz.hasElt_eq]
    simp
  obtain ⟨h', hrun, hfresh'⟩ := foldlM_add_fresh (p := (· ∈ w)) keys
    (f := fun h' elt =>
      do if ← hasElt h' y.data elt then addToXset elt h.xsets.length h' else some h')
    (fun h' elt hkeeps => by simp [hmem h' elt hkeeps]) hfresh
  refine ⟨h', ?_, ?_⟩
  · simp only [xsetIntersection, bind_eq_bind, hsl, bind_some, hy, hx, hr.elements_eq]
    exact congrArg (fun o : Option (Heap α) => o.bind fun h' => some (h.xsets.length, h')) hrun
  · rwa [empty_union, filter_mem_eq_inter, ← hinter] at hfresh'

theorem xsetUnion_spec (hg : h.Good) (hs : Denotes h a s) (hu : Denotes h b u) :
    ∃ r h', xsetUnion a b h = some (r, h') ∧ h'.Good ∧ (∀ b < h.xsets.length, Keeps b h h') ∧
      Denotes h' r (s ∪ u) := by
  obtain ⟨c, d, v, w, hsl, ⟨x, elts, hx, hrx, rfl⟩, hw, hcard, hunion, -, -⟩ :=
    smallLarge_spec hs hu
  obtain ⟨y, keys, hy, hr, rfl⟩ := id hw
  rw [toFinset_card_of_nodup hrx.nodup, toFinset_card_of_nodup hr.nodup] at hcard
  rw [hunion]
  cases hr with
  | @table t _ ht hn hlt =>
    by_cases hsub : ∀ x ∈ elts, x ∈ keys
    · have hcount : elts.countP (fun x => decide (x ∉ keys)) = 0 := by
        simpa [countP_eq_zero] using hsub
      refine ⟨d, h, ?_, hg, fun b _ => .refl b h, ?_⟩
      · simp only [xsetUnion, bind_eq_bind, hsl, bind_some, hy, hx, ht,
          hrx.elements_eq, if_pos hcount]
      · rwa [union_eq_right.mpr fun x hx => mem_toFinset.mpr (hsub x (mem_toFinset.mp hx))]
    · have hcount : elts.countP (fun x => decide (x ∉ keys)) ≠ 0 := by
        simpa [countP_eq_zero] using hsub
      have hmem : ∀ x, x ∈ keys.foldl puthash (elts.foldl puthash []) ↔ x ∈ elts ∨ x ∈ keys := by
        simp [mem_foldl_puthash]
      have hnew := nodup_foldl_puthash keys (nodup_foldl_puthash elts nodup_nil)
      have hfresh : Fresh h _ ⟨h.xsets ++ [⟨.table h.tables.length, .index 0⟩], _⟩ :=
        newXset_fresh hg (prefix_append h.tables [keys.foldl puthash (elts.foldl puthash [])])
          (fun t ht => by cases ht; exact le_refl _)
          (.table (getElem?_concat_length ..) hnew
            (hlt.trans_le (hn.subperm fun x hx => (hmem x).mpr (.inr hx)).length_le))
      refine ⟨h.xsets.length, _, ?_, hfresh.good, hfresh.keeps, ?_⟩
      · simp only [xsetUnion, bind_eq_bind, hsl, bind_some, hy, hx, ht,
          hrx.elements_eq, if_neg hcount]
        rfl
      · convert hfresh.denotes using 1
        ext x
        simp [hmem]
  | list hn hle =>
    -- no more elements than a list, so a list
    obtain ⟨-⟩ | ⟨-, -, hlt⟩ := id hrx
    · have hfresh : Fresh h keys.toFinset (newXset (.list keys) (.index keys.length) h).2 :=
        newXset_fresh hg (prefix_refl _) (fun t ht => by cases ht) (.list hn hle)
      obtain ⟨h', hrun, hfresh'⟩ := foldlM_add_fresh (p := fun _ => True) elts
        (f := fun h' elt => addToXset elt h.xsets.length h') (fun h' elt _ =>
          (if_pos trivial).symm) hfresh
      rw [Finset.filter_true, Finset.union_comm] at hfresh'
      obtain ⟨z, keys', hz, hrz, hkeys⟩ := hfresh'.denotes
      refine ⟨if z.data = .list keys then d else h.xsets.length, h', ?_, hfresh'.good,
        hfresh'.keeps, ?_⟩
      · simp only [xsetUnion, bind_eq_bind, hsl, bind_some, hy, hx, xsetCount]
        refine (congrArg (fun o : Option (Heap α) => o.bind fun h' =>
          (h'.xsets[h.xsets.length]?).bind fun z =>
          some (if z.data = .list keys then d else h.xsets.length, h')) hrun).trans ?_
        rw [bind_some, hz, bind_some]
      · split
        -- nothing was added
        · rename_i hdata
          have heq : keys' = keys := some_inj.mp (hrz.elements_eq.symm.trans (by rw [hdata]; rfl))
          rw [← hkeys, heq]
          exact (hfresh'.keeps d hw.lt).2 _ hw
        · exact hfresh'.denotes
    · exact absurd (hlt.trans_le hcard) (not_lt.mpr hle)

/-! ## Questions -/

theorem xsetSubsetP_eq (hs : Denotes h a s) (hu : Denotes h b u) :
    xsetSubsetP a b h = some (decide (s ⊆ u)) := by
  obtain ⟨x, keys, hx, hr, rfl⟩ := hs
  obtain ⟨y, keys', hy, hr', rfl⟩ := hu
  have hsub : (∀ x ∈ keys, x ∈ keys') ↔ keys.toFinset ⊆ keys'.toFinset := by simp [subset_iff]
  simp only [xsetSubsetP, bind_eq_bind, hx, hy, bind_some, hr.xsetCount_eq, hr'.xsetCount_eq,
    hr.elements_eq, hr'.subsetLoop_eq keys, hsub]
  split
  · rfl
  · rename_i hlt
    refine congrArg some (decide_eq_false fun hle => hlt ?_).symm
    have := card_le_card hle
    rwa [toFinset_card_of_nodup hr.nodup, toFinset_card_of_nodup hr'.nodup] at this

theorem xsetEqual_eq (hs : Denotes h a s) (hu : Denotes h b u) :
    xsetEqual a b h = some (decide (s = u)) := by
  obtain ⟨x, keys, hx, hr, rfl⟩ := hs
  obtain ⟨y, keys', hy, hr', rfl⟩ := hu
  have hcard := toFinset_card_of_nodup hr.nodup
  have hcard' := toFinset_card_of_nodup hr'.nodup
  simp only [xsetEqual, bind_eq_bind, hx, hy, bind_some, hr.xsetCount_eq, hr'.xsetCount_eq]
  split
  · rename_i hlength
    have hsub : (∀ x ∈ keys, x ∈ keys') ↔ keys.toFinset = keys'.toFinset := by
      have hle : keys'.toFinset.card ≤ keys.toFinset.card := by rw [hcard, hcard', hlength]
      rw [← subset_iff_eq_of_card_le hle, subset_iff]
      simp
    have hloop := hr'.subsetLoop_eq keys
    rw [← decide_eq_decide.mpr hsub]
    -- sets of one size are both lists or both tables
    cases hr with
    | list hn hle =>
      cases hr' with
      | list => simp [all_eq]
      | table _ _ hlt => exact absurd hlt (not_lt.mpr (hlength ▸ hle))
    | table ht hn hlt =>
      cases hr' with
      | list _ hle => exact absurd hlt (not_lt.mpr (hlength ▸ hle))
      | table =>
        simp only [ht, bind_some]
        exact hloop
  · rename_i hlength
    refine congrArg some (decide_eq_false fun heq => hlength ?_).symm
    rw [← hcard, ← hcard', heq]

omit [DecidableEq α] in
theorem foldlM_hash_perm {eqlHash : α → Option (BitVec 63)} (hperm : keys.Perm elts) :
    ∀ start : BitVec 63, keys.foldlM (fun sum x => do some ((← eqlHash x) + sum)) start =
      elts.foldlM (fun sum x => do some ((← eqlHash x) + sum)) start := by
  induction hperm with
  | nil => exact fun _ => rfl
  | cons x _ ih =>
    intro start
    simp only [foldlM_cons, bind_eq_bind]
    cases eqlHash x with
    | none => rfl
    | some n => exact ih _
  | swap x y l =>
    intro start
    simp only [foldlM_cons, bind_eq_bind]
    cases eqlHash x with
    | none => cases eqlHash y <;> rfl
    | some m =>
      cases eqlHash y with
      | none => rfl
      | some n => simp only [bind_some, ← BitVec.add_assoc, BitVec.add_comm m n]
  | trans _ _ ih ih' => exact fun start => (ih start).trans (ih' start)

theorem xsetEltsHash_eq (eqlHash : α → Option (BitVec 63)) (hs : Denotes h a s)
    (hu : Denotes h b s) : xsetEltsHash eqlHash a h = xsetEltsHash eqlHash b h := by
  obtain ⟨x, keys, hx, hr, rfl⟩ := hs
  obtain ⟨y, keys', hy, hr', hkeys⟩ := hu
  have hperm : keys.Perm keys' := perm_of_nodup_nodup_toFinset_eq hr.nodup hr'.nodup hkeys.symm
  have hindex : ∀ {x : Xset α} {keys : List α}, Represents h x keys → ∃ n, x.extra = .index n := by
    rintro _ _ (⟨_, _⟩ | ⟨_, _, _⟩)
    · exact ⟨_, rfl⟩
    · exact ⟨_, rfl⟩
  obtain ⟨m, hm⟩ := hindex hr
  obtain ⟨n, hn⟩ := hindex hr'
  simp only [xsetEltsHash, bind_eq_bind, hx, hy, bind_some, hr.xsetCount_eq,
    hr'.xsetCount_eq, hm, hn, hr.elements_eq, hr'.elements_eq, hperm.length_eq]
  exact congrArg (fun o : Option (BitVec 63) => o.bind fun sum =>
    some (Lockless.murmurHashWordPosFixnum (wordBits sum)))
    (foldlM_hash_perm hperm _)

/-! ## Programs -/

/-- A valid operation runs to its end. -/
theorem Op.run_good (hg : h.Good) {op : Op α} (hv : op.Valid h) :
    ∃ h', op.run h = some h' ∧ h'.Good := by
  cases op with
  | alloc => exact ⟨_, rfl, (allocXset_fresh hg).good⟩
  | add elt a =>
    obtain ⟨s, hs⟩ := hg.denotes a hv
    obtain ⟨h', hrun, hgood, -⟩ := addToXset_spec hg hs elt
    exact ⟨h', hrun, hgood⟩
  | union a b =>
    obtain ⟨s, hs⟩ := hg.denotes a hv.1
    obtain ⟨u, hu⟩ := hg.denotes b hv.2
    obtain ⟨r, h', hrun, hgood, -⟩ := xsetUnion_spec hg hs hu
    exact ⟨h', by rw [Op.run, hrun, map_some], hgood⟩
  | intersection a b =>
    obtain ⟨s, hs⟩ := hg.denotes a hv.1
    obtain ⟨u, hu⟩ := hg.denotes b hv.2
    obtain ⟨h', hrun, hfresh⟩ := xsetIntersection_spec hg hs hu
    exact ⟨h', by rw [Op.run, hrun, map_some], hfresh.good⟩

theorem program_good {ops : List (Op α)} (hprogram : program ops = some h) : h.Good := by
  have hrun : ∀ ops : List (Op α), ∀ h₀ : Heap α, h₀.Good →
      ops.foldlM (fun h op => if op.Valid h then op.run h else none) h₀ = some h → h.Good := by
    intro ops
    induction ops with
    | nil =>
      intro h₀ hg heq
      cases heq
      exact hg
    | cons op ops ih =>
      intro h₀ hg heq
      rw [foldlM_cons] at heq
      by_cases hv : op.Valid h₀
      · obtain ⟨h₁, hop, hg₁⟩ := Op.run_good hg hv
        rw [if_pos hv, hop] at heq
        exact ih h₁ hg₁ heq
      · rw [if_neg hv] at heq
        cases heq
  exact hrun ops _ ⟨fun _ ha => absurd ha (Nat.not_lt_zero _), fun hx => by cases hx⟩ hprogram

/-- Two sets have the elements `s` and `u`; the operations and the questions, which return without a
type error, are those on finite sets, and no set changes but one that an element is added to. -/
structure AreFinsets (eqlHash : α → Option (BitVec 63)) (h : Heap α) (a b : ℕ) (s u : Finset α) :
    Prop where
  left : Denotes h a s
  right : Denotes h b u
  union : ∃ r h', xsetUnion a b h = some (r, h') ∧ Denotes h' r (s ∪ u) ∧
    ∀ c < h.xsets.length, Keeps c h h'
  intersection : ∃ r h', xsetIntersection a b h = some (r, h') ∧ Denotes h' r (s ∩ u) ∧
    ∀ c < h.xsets.length, Keeps c h h'
  add elt : ∃ h', addToXset elt a h = some h' ∧ Denotes h' a (insert elt s) ∧ ∀ c ≠ a, Keeps c h h'
  member elt : xsetMemberP elt a h = some (decide (elt ∈ s))
  count : (h.xsets[a]?).bind (xsetCount h) = some s.card
  subset : xsetSubsetP a b h = some (decide (s ⊆ u))
  equal : xsetEqual a b h = some (decide (s = u))
  hash : s = u → xsetEltsHash eqlHash a h = xsetEltsHash eqlHash b h

/-- After any program any two of its sets are finite sets, whatever their data are. -/
theorem xsets_are_finsets (eqlHash : α → Option (BitVec 63)) (ops : List (Op α))
    (hprogram : program ops = some h)
    (ha : a < h.xsets.length) (hb : b < h.xsets.length) : ∃ s u, AreFinsets eqlHash h a b s u := by
  have hg := program_good hprogram
  obtain ⟨s, hs⟩ := hg.denotes a ha
  obtain ⟨u, hu⟩ := hg.denotes b hb
  refine ⟨s, u, hs, hu, ?_, ?_, fun elt => ?_, fun elt => ?_, ?_, xsetSubsetP_eq hs hu,
    xsetEqual_eq hs hu, ?_⟩
  · obtain ⟨r, h', hrun, -, hkeeps, hdenotes⟩ := xsetUnion_spec hg hs hu
    exact ⟨r, h', hrun, hdenotes, hkeeps⟩
  · obtain ⟨h', hrun, hfresh⟩ := xsetIntersection_spec hg hs hu
    exact ⟨_, h', hrun, hfresh.denotes, hfresh.keeps⟩
  · obtain ⟨h', hrun, -, -, hdenotes, hkeeps⟩ := addToXset_spec hg hs elt
    exact ⟨h', hrun, hdenotes, hkeeps⟩
  · obtain ⟨x, keys, hx, hr, rfl⟩ := hs
    rw [xsetMemberP, hx, bind_eq_bind, bind_some, hr.hasElt_eq]
    simp
  · obtain ⟨x, keys, hx, hr, rfl⟩ := hs
    rw [hx, bind_some, hr.xsetCount_eq, toFinset_card_of_nodup hr.nodup]
  · rintro rfl
    exact xsetEltsHash_eq eqlHash hs hu

/-- A table of 25 numbers, a list of two, and their intersection. -/
def mixedOps : List (Op ℕ) :=
  .alloc :: (List.range 25).map (.add · 0) ++ [.alloc, .add 24 1, .add 30 1, .intersection 0 1]

def mixedHeap : Heap ℕ :=
  ⟨[⟨.table 0, .index 0⟩, ⟨.list [30, 24], .index 2⟩, ⟨.list [24], .index 1⟩],
    [24 :: (List.range 24).reverse]⟩

/-- The two sets of different forms. -/
theorem xsets_are_finsets_mixed :
    ∃ s u, AreFinsets (fun n => some (BitVec.ofNat 63 n)) mixedHeap 0 1 s u :=
  xsets_are_finsets _ mixedOps (by decide) (by decide) (by decide)

end Sbcl.Xsets
