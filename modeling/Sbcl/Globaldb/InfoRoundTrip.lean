import Mathlib.Data.List.Perm.Subperm
import Sbcl.Globaldb.InfoPacking

/-!
# The round trip of packed info (compiler/info-vector.lisp)

* `putFieldsTyped`, `packifyInfosTyped` : packing with the type of a field, which is an info number;
* `packifyInfos_congr` : packing depends on the vector up to its end;
* `unpackifyLoop_frame`, `packifyLoop_frame` : nothing is written outside of the sizes that are
  computed before;
* `info_round_trip` : both round trips.
-/

namespace Sbcl.InfoVector

open Function Limbs Memory List

variable {ω : Type}
variable {aux : AuxGroups ω} {info : Infos ω}

/-! ## Fields with their type -/

/-- Each value that `put-field` is called with is of type `info-number`. -/
def putFieldsTyped (input : SimpleVector ω) (last i : ℕ) : Bool :=
  let count := (input i).index / 2
  count < 2 ^ infoNumberBits &&
    ((List.range count).all fun iter => (input (i + 1 + 2 * iter)).index < 2 ^ infoNumberBits) &&
    if i + 1 + 2 * count ≥ last then true else putFieldsTyped input last (i + 1 + 2 * count + 1)
termination_by last - i

/-- `packify-infos`, with nothing where a field has the wrong type. -/
def packifyInfosTyped (input : SimpleVector ω) (last : ℕ) : Option (PackedInfo ω) :=
  if putFieldsTyped input last 0 then packifyInfos input last else none

variable {input : SimpleVector ω} {i : ℕ} {g : Entries ω}

theorem typed_group (hinput : Stored input i (groupCells g)) :
    (decide (g.length < 2 ^ infoNumberBits) &&
      (List.range g.length).all fun iter =>
        decide ((input (i + 1 + 2 * iter)).index < 2 ^ infoNumberBits)) = true ↔
      ∀ x ∈ groupFields g, x < 2 ^ infoNumberBits := by
  obtain ⟨-, hentry⟩ := groupCells_spec hinput
  unfold groupFields
  simp only [Bool.and_eq_true, decide_eq_true_eq, all_eq_true, mem_range, mem_cons, mem_map,
    forall_eq_or_imp]
  refine and_congr_right fun _ => ?_
  constructor
  · rintro h x ⟨e, he, rfl⟩
    obtain ⟨iter, hiter, rfl⟩ := getElem_of_mem he
    have := h iter hiter
    rwa [(hentry iter g[iter] (getElem?_eq_getElem hiter)).1] at this
  · intro h iter hiter
    rw [(hentry iter g[iter] (getElem?_eq_getElem hiter)).1]
    exact h _ ⟨g[iter], getElem_mem hiter, rfl⟩

theorem fit_cons {e : Entries ω} {k : ω} :
    Fit g ((k, e) :: aux) ↔ (∀ x ∈ groupFields g, x < 2 ^ infoNumberBits) ∧ Fit e aux := by
  unfold Fit
  rw [fieldsOf_cons]
  simp only [mem_append, or_imp, forall_and]

variable {last : ℕ}

theorem putFieldsTyped_iff
    (hinput : Stored input i (cellsOf g aux)) (hlast : last = i + (cellsOf g aux).length) :
    putFieldsTyped input last i = true ↔ Fit g aux := by
  induction aux generalizing i g with
  | nil =>
    simp only [cellsOf, auxCells, flatMap_nil, append_nil] at hinput hlast
    have hcount := (groupCells_spec hinput).1
    have hindex : (Obj.fixnum (1 + 2 * g.length) : Obj ω).index / 2 = g.length := by
      show (1 + 2 * g.length) / 2 = g.length
      omega
    rw [length_groupCells] at hlast
    unfold putFieldsTyped
    dsimp only
    rw [hcount, hindex, if_pos (by omega), Bool.and_true, typed_group hinput]
    simp [Fit, fieldsOf, auxFields]
  | cons a aux ih =>
    obtain ⟨k, e⟩ := a
    rw [cellsOf_cons] at hinput hlast
    have hcount := (groupCells_spec hinput.left).1
    have hrest := stored_cons.1 hinput.right
    have hindex : (Obj.fixnum (1 + 2 * g.length) : Obj ω).index / 2 = g.length := by
      show (1 + 2 * g.length) / 2 = g.length
      omega
    rw [length_append, length_cons, length_groupCells] at hlast
    rw [length_groupCells] at hrest
    unfold putFieldsTyped
    dsimp only
    rw [hcount, hindex, if_neg (by omega), Bool.and_eq_true, typed_group hinput.left, fit_cons]
    refine and_congr_right fun _ => ?_
    have hnext : i + 1 + 2 * g.length + 1 = i + (1 + 2 * g.length) + 1 := by omega
    rw [hnext]
    exact ih hrest.2 (by omega)

/-! ## Packing a vector again -/

variable {input' : SimpleVector ω}

theorem packGroup_congr (hinput : Stored input i (groupCells g))
    (hinput' : Stored input' i (groupCells g)) (s : Packer ω) :
    (dotimes g.length s fun iter s =>
      putDatum (putField s (input (i + 1 + 2 * iter)).index) (input (i + 1 + 2 * iter + 1))) =
    dotimes g.length s fun iter s =>
      putDatum (putField s (input' (i + 1 + 2 * iter)).index) (input' (i + 1 + 2 * iter + 1)) := by
  obtain ⟨-, hentry⟩ := groupCells_spec hinput
  obtain ⟨-, hentry'⟩ := groupCells_spec hinput'
  apply dotimes_congr
  intro iter hiter s
  have h := hentry iter g[iter] (getElem?_eq_getElem hiter)
  have h' := hentry' iter g[iter] (getElem?_eq_getElem hiter)
  rw [h.1, h.2, h'.1, h'.2]

/-- Packing reads the cells of the vector only. -/
theorem packifyLoop_congr
    (hinput : Stored input i (cellsOf g aux)) (hinput' : Stored input' i (cellsOf g aux))
    (hlast : last = i + (cellsOf g aux).length)
    (s : Packer ω) : packifyLoop input last i s = packifyLoop input' last i s := by
  have hindex : ∀ g : Entries ω, (Obj.fixnum (1 + 2 * g.length) : Obj ω).index / 2 = g.length := by
    intro g
    show (1 + 2 * g.length) / 2 = g.length
    omega
  induction aux generalizing i g s with
  | nil =>
    simp only [cellsOf, auxCells, flatMap_nil, append_nil] at hinput hinput' hlast
    rw [length_groupCells] at hlast
    unfold packifyLoop
    dsimp only
    rw [(groupCells_spec hinput).1, (groupCells_spec hinput').1, hindex,
      packGroup_congr hinput hinput', if_pos (by omega), if_pos (by omega)]
  | cons a aux ih =>
    obtain ⟨k, e⟩ := a
    rw [cellsOf_cons] at hinput hinput' hlast
    have hrest := stored_cons.1 hinput.right
    have hrest' := stored_cons.1 hinput'.right
    rw [length_append, length_cons, length_groupCells] at hlast
    rw [length_groupCells] at hrest hrest'
    have hnext : i + 1 + 2 * g.length = i + (1 + 2 * g.length) := by omega
    unfold packifyLoop
    dsimp only
    rw [(groupCells_spec hinput.left).1, (groupCells_spec hinput'.left).1, hindex,
      packGroup_congr hinput.left hinput'.left,
      if_neg (by omega), if_neg (by omega), hnext, hrest.1, hrest'.1]
    exact ih hrest.2 hrest'.2 (by omega) _

theorem packifyInfos_congr (hinput : Stored input 0 info.cells)
    (hinput' : Stored input' 0 info.cells) :
    packifyInfos input info.cells.length = packifyInfos input' info.cells.length := by
  have hsize := computePackifiedInfoSize_spec info.primary info.aux hinput
  have hsize' := computePackifiedInfoSize_spec info.primary info.aux hinput'
  have hloop : ∀ s, packifyLoop input info.cells.length 0 s =
      packifyLoop input' info.cells.length 0 s :=
    packifyLoop_congr hinput hinput' (Nat.zero_add _).symm
  have hlen : computePackifiedInfoSize input info.cells.length =
      computePackifiedInfoSize input' info.cells.length :=
    hsize.trans hsize'.symm
  unfold packifyInfos
  dsimp only
  rw [hlen, hloop]

/-! ## What is written -/

variable {p : PackedInfo ω}

theorem unpackGroup_frame {n j q : ℕ} (it : Iterator) (output : SimpleVector ω)
    (hq : j + 1 + 2 * n ≤ q) : (dotimes n (it, output) fun iter s =>
      ((nextField p s.1).2, update (update s.2 (j + 1 + 2 * iter) (.fixnum (nextField p s.1).1))
        (j + 1 + 2 * iter + 1) (p.ref (i - 1 - iter)))).2 q = output q := by
  refine dotimes_induction (P := fun _ (s : Iterator × SimpleVector ω) => s.2 q = output q) rfl ?_
  intro iter hiter s hs
  dsimp only
  rw [update_of_ne (by omega), update_of_ne (by omega)]
  exact hs

/-- Unpacking writes the cells of the groups only. -/
theorem unpackifyLoop_frame {t d q : ℕ} {it : Iterator} (j : ℕ)
    (output : SimpleVector ω) (h : At p t d g aux) (hit : AtField p t it)
    (hq : j + (cellsOf g aux).length ≤ q) :
    unpackifyLoop p (p.len - d) j it output q = output q := by
  induction aux generalizing t d g it j output with
  | nil =>
    obtain ⟨hcount, hit'⟩ := nextField_spec hit
    rw [h.count] at hcount
    obtain ⟨hit'', -, -⟩ := unpackGroup_spec j output h hit'
    simp only [cellsOf, auxCells, flatMap_nil, append_nil, length_groupCells] at hq
    have hframe := @unpackGroup_frame ω (p.len - d) p g.length j q (nextField p it).2
      (update output j (.fixnum (1 + 2 * g.length))) (by omega)
    rw [update_of_ne (by omega)] at hframe
    unfold unpackifyLoop
    dsimp only
    rw [hcount]
    generalize dotimes g.length (_ : Iterator × SimpleVector ω) _ = s at hit'' hframe ⊢
    have hlen := h.len_nil
    have hindex := descriptorIndex_eq hit''
    rw [if_neg (by rw [hindex, Nat.add_assoc]; omega)]
    exact hframe
  | cons a aux ih =>
    obtain ⟨k, e⟩ := a
    obtain ⟨hcount, hit'⟩ := nextField_spec hit
    rw [h.count] at hcount
    obtain ⟨hit'', -, -⟩ := unpackGroup_spec j output h hit'
    rw [cellsOf_cons, length_append, length_cons, length_groupCells] at hq
    have hframe := @unpackGroup_frame ω (p.len - d) p g.length j q (nextField p it).2
      (update output j (.fixnum (1 + 2 * g.length))) (by omega)
    rw [update_of_ne (by omega)] at hframe
    unfold unpackifyLoop
    dsimp only
    rw [hcount]
    generalize dotimes g.length (_ : Iterator × SimpleVector ω) _ = s at hit'' hframe ⊢
    have hlen := h.len_cons
    have hindex := descriptorIndex_eq hit''
    have hmono := descriptors_mono (show t + 1 + g.length ≤ t + (1 + g.length) + 1 by omega)
    have hd : p.len - d - g.length - 1 = p.len - (d + (1 + g.length)) := by omega
    rw [if_pos (by rw [hindex]; omega), hd,
      ih _ _ h.next.2 (by rw [← Nat.add_assoc]; exact hit'') (by omega), update_of_ne (by omega)]
    exact hframe

/-- From `n` on, nothing is written but descriptors. -/
structure Extends (n : ℕ) (s s' : Packer ω) : Prop where
  j_le : s.j ≤ s'.j
  k_le : s.k ≤ n → s'.k ≤ n
  frame : s.k ≤ n → ∀ q ≥ n, s'.j ≤ q → s'.output q = s.output q

section Extends
variable {n : ℕ} {s s' s'' : Packer ω}

theorem extends_refl (n : ℕ) (s : Packer ω) : Extends n s s := ⟨le_refl _, id, fun _ _ _ _ => rfl⟩

theorem Extends.trans (h : Extends n s s') (h' : Extends n s' s'') : Extends n s s'' := by
  refine ⟨h.j_le.trans h'.j_le, fun hk => h'.k_le (h.k_le hk), fun hk q hq hj => ?_⟩
  rw [h'.frame (h.k_le hk) q hq hj, h.frame hk q hq (h'.j_le.trans hj)]

theorem extends_putField (n : ℕ) (s : Packer ω) (val : ℕ) : Extends n s (putField s val) := by
  unfold putField
  split
  · exact ⟨le_refl _, id, fun _ _ _ _ => rfl⟩
  · refine ⟨Nat.le_succ _, id, fun _ q _ hj => ?_⟩
    dsimp only at hj ⊢
    rw [update_of_ne (by omega)]

theorem extends_putDatum (hn : 0 < n) (s : Packer ω) (datum : Obj ω) :
    Extends n s (putDatum s datum) := by
  refine ⟨le_refl _, fun hk => (Nat.sub_le _ _).trans hk, fun hk q hq _ => ?_⟩
  unfold putDatum
  dsimp only
  rw [update_of_ne (by omega)]

theorem extends_packGroup (hn : 0 < n) (input : SimpleVector ω) (i count : ℕ) (s : Packer ω) :
    Extends n s (dotimes count s fun iter s =>
      putDatum (putField s (input (i + 1 + 2 * iter)).index) (input (i + 1 + 2 * iter + 1))) := by
  refine dotimes_induction (P := fun _ s' => Extends n s s') (extends_refl n s) ?_
  intro iter _ s' hs'
  exact hs'.trans ((extends_putField n s' _).trans (extends_putDatum hn _ _))

theorem extends_packifyLoop (hn : 0 < n) (input : SimpleVector ω) (last i : ℕ) (s : Packer ω) :
    Extends n s (packifyLoop input last i s) := by
  fun_induction packifyLoop input last i s with
  | case1 i s count s' i' hlast =>
    exact (extends_putField n s _).trans (extends_packGroup hn input i _ _)
  | case2 i s count s' i' hlast ih =>
    exact ((extends_putField n s _).trans (extends_packGroup hn input i _ _)).trans
      ((extends_putDatum hn _ _).trans ih)

end Extends

/-- Packing writes the cells of the packed info only. -/
theorem packifyInfos_frame (h : packifyInfos input last = some p)
    (hlen : 0 < p.len) : ∀ q ≥ p.len, p.ref q = .fixnum 0 := by
  unfold packifyInfos at h
  dsimp only at h
  generalize computePackifiedInfoSize input last = len at h
  have hextends :
      0 < len → Extends len _ (packifyLoop input last 0 ⟨fun _ => .fixnum 0, 0, len, 0, 0⟩) :=
    fun hn => extends_packifyLoop hn input last 0 _
  generalize packifyLoop input last 0 ⟨fun _ => .fixnum 0, 0, len, 0, 0⟩ = s at h hextends
  intro q hq
  by_cases hshift : s.fieldShift = 0
  · rw [if_pos hshift] at h
    split at h
    · rename_i hjk
      cases h
      obtain ⟨-, hk, hframe⟩ := hextends hlen
      have hk' := hk (le_refl _)
      dsimp only at hq hk' ⊢
      exact hframe (le_refl _) q hq (by omega)
    · cases h
  · rw [if_neg hshift] at h
    split at h
    · rename_i hjk
      cases h
      obtain ⟨-, hk, hframe⟩ := hextends hlen
      have hk' := hk (le_refl _)
      dsimp only at hq hk' hjk ⊢
      rw [update_of_ne (by omega)]
      exact hframe (le_refl _) q hq (by omega)
    · cases h

/-! ## The round trip -/

/-- The info numbers of each group are distinct. -/
structure Infos.WellFormed (info : Infos ω) : Prop where
  primary : (info.primary.map Prod.fst).Nodup
  aux : ∀ a ∈ info.aux, (a.2.map Prod.fst).Nodup
  primary_lt : ∀ e ∈ info.primary, e.1 < 2 ^ infoNumberBits
  aux_lt : ∀ a ∈ info.aux, ∀ e ∈ a.2, e.1 < 2 ^ infoNumberBits

/-- A group has all info numbers. -/
def FullGroup (info : Infos ω) : Prop :=
  info.primary.length = 2 ^ infoNumberBits ∨ ∃ a ∈ info.aux, a.2.length = 2 ^ infoNumberBits

theorem group_fit_iff (hnodup : (g.map Prod.fst).Nodup) (hlt : ∀ e ∈ g, e.1 < 2 ^ infoNumberBits) :
    (∀ x ∈ groupFields g, x < 2 ^ infoNumberBits) ↔ g.length ≠ 2 ^ infoNumberBits := by
  have hle : g.length ≤ 2 ^ infoNumberBits := by
    have hsub : g.map Prod.fst ⊆ List.range (2 ^ infoNumberBits) := by
      intro x hx
      obtain ⟨e, he, rfl⟩ := mem_map.mp hx
      exact mem_range.mpr (hlt e he)
    have := (subperm_of_subset hnodup hsub).length_le
    simpa using this
  unfold groupFields
  simp only [mem_cons, mem_map, forall_eq_or_imp]
  constructor
  · rintro ⟨h, -⟩
    omega
  intro h
  refine ⟨by omega, ?_⟩
  rintro x ⟨e, he, rfl⟩
  exact hlt e he

theorem fit_iff (h : info.WellFormed) : Fit info.primary info.aux ↔ ¬ FullGroup info := by
  obtain ⟨g, aux⟩ := info
  obtain ⟨hprimary, haux, hlt, hauxlt⟩ := h
  have hall : (∀ a ∈ aux, ∀ x ∈ groupFields a.2, x < 2 ^ infoNumberBits) ↔ ∀ a ∈ aux,
      a.2.length ≠ 2 ^ infoNumberBits :=
    forall₂_congr fun a ha => group_fit_iff (haux a ha) (hauxlt a ha)
  have hfit : Fit g aux ↔ (∀ x ∈ groupFields g, x < 2 ^ infoNumberBits) ∧ ∀ a ∈ aux,
      ∀ x ∈ groupFields a.2, x < 2 ^ infoNumberBits := by
    unfold Fit fieldsOf auxFields
    simp only [mem_append, mem_flatMap, or_imp, forall_and, forall_exists_index, and_imp]
    exact and_congr_right fun _ => ⟨fun h a ha x hx => h x a ha hx, fun h x a ha hx => h a ha x hx⟩
  unfold FullGroup
  rw [hfit, group_fit_iff hprimary hlt, hall, not_or]
  simp

/-- A vector with a group that has all info numbers is not packed: their count is none. Any other is
packed into as many cells as were computed, and unpacked again. -/
theorem info_round_trip {input : SimpleVector ω} {info : Infos ω} (hwf : info.WellFormed)
    (hinput : Stored input 0 info.cells) :
    (FullGroup info → packifyInfosTyped input info.cells.length = none) ∧
    (¬ FullGroup info → ∃ p, packifyInfosTyped input info.cells.length = some p ∧ Packs p info ∧
      p.len = computePackifiedInfoSize input info.cells.length ∧
      (∀ q ≥ p.len, p.ref q = .fixnum 0) ∧
      computeUnpackifiedInfoSize p = info.cells.length ∧ ∀ output : SimpleVector ω,
        (∀ q < info.cells.length, unpackifyInfos p output q = input q) ∧
        (∀ q ≥ info.cells.length, unpackifyInfos p output q = output q) ∧
        packifyInfosTyped (unpackifyInfos p output) info.cells.length = some p) := by
  have htyped : ∀ {v : SimpleVector ω}, Stored v 0 info.cells →
      (putFieldsTyped v info.cells.length 0 = true ↔ ¬ FullGroup info) := by
    intro v hv
    rw [← fit_iff hwf]
    exact putFieldsTyped_iff hv (Nat.zero_add _).symm
  constructor
  · intro hfull
    unfold packifyInfosTyped
    rw [if_neg (mt (htyped hinput).mp (not_not.mpr hfull))]
  intro hfull
  obtain ⟨p, hp, hpacks⟩ := packifyInfos_spec hinput ((fit_iff hwf).mpr hfull)
  have hsize := computePackifiedInfoSize_spec info.primary info.aux hinput
  have hlen : p.len = computePackifiedInfoSize input info.cells.length := by
    have hat := hpacks.len
    rw [Nat.zero_add, Nat.zero_add] at hat
    exact hat.trans hsize.symm
  have hpos : 0 < p.len := by
    have hat := hpacks.len
    have hfields := (length_dataOf info.primary info.aux).1
    rw [Nat.zero_add, Nat.zero_add] at hat
    unfold descriptors at hat
    rw [infosPerWord_eq] at hat
    omega
  refine ⟨p, ?_, hpacks, hlen, packifyInfos_frame hp hpos, computeUnpackifiedInfoSize_spec hpacks,
    fun output => ?_⟩
  · unfold packifyInfosTyped
    rw [if_pos ((htyped hinput).mpr hfull), hp]
  have hunpacked := unpackifyInfos_spec hpacks output
  refine ⟨fun q hq => ?_, fun q hq => ?_, ?_⟩
  · have h := hinput q _ (getElem?_eq_getElem hq)
    have h' := hunpacked q _ (getElem?_eq_getElem hq)
    rw [Nat.zero_add] at h h'
    rw [h, h']
  · exact unpackifyLoop_frame 0 output hpacks (atField_zero p) (by rw [Nat.zero_add]; exact hq)
  · unfold packifyInfosTyped
    rw [if_pos ((htyped hunpacked).mpr hfull), packifyInfos_congr hunpacked hinput, hp]

/-- The vector with these cells, and zeros. -/
def vectorOf (cells : List (Obj ω)) : SimpleVector ω := fun i => cells.getD i (.fixnum 0)

theorem stored_vectorOf (cells : List (Obj ω)) : Stored (vectorOf cells) 0 cells := by
  intro m x hx
  rw [Nat.zero_add, vectorOf, getD_eq_getElem?_getD, hx, Option.getD_some]

/-- Two infos of a name, and one of `(setf name)`. -/
def sampleInfos : Infos ℕ := ⟨[(63, .other 7), (2, .fixnum 5)], [(0, [(1, .other 8)])]⟩

theorem info_round_trip_sample :
    ∃ p, packifyInfosTyped (vectorOf sampleInfos.cells) sampleInfos.cells.length = some p ∧
    ∀ output : SimpleVector ℕ,
      packifyInfosTyped (unpackifyInfos p output) sampleInfos.cells.length = some p := by
  have hwf : sampleInfos.WellFormed := by
    constructor <;> decide
  have hfull : ¬ FullGroup sampleInfos := by
    unfold FullGroup
    decide
  obtain ⟨p, hp, -, -, -, -, hunpacked⟩ :=
    (info_round_trip hwf (stored_vectorOf sampleInfos.cells)).2 hfull
  exact ⟨p, hp, fun output => (hunpacked output).2.2⟩

/-- All info numbers. -/
def fullInfos : Infos ℕ := ⟨(List.range 64).map fun n => (n, .fixnum 0), []⟩

/-- Their count, 64, is not an info number. -/
theorem not_packed_full : fullInfos.WellFormed ∧
    packifyInfosTyped (vectorOf fullInfos.cells) fullInfos.cells.length = none := by
  constructor
  · constructor <;> decide
  have hcount : (vectorOf fullInfos.cells 0).index / 2 = 64 := by decide
  unfold packifyInfosTyped putFieldsTyped
  dsimp only
  rw [hcount]
  rfl

end Sbcl.InfoVector
