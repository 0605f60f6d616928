import Sbcl.Globaldb.InfoVector
import Sbcl.Lib.Memory

/-!
# The two forms of packed info

* `Infos` : the groups of a packed info, with their fields, data and unpacked cells as lists;
* `At` : what is stored from the beginning of a group on;
* `nextField_spec`, `putField_wrote` : a field read and a field written;
* `unpackifyInfos_spec`, `packifyInfos_spec` : the two conversions.
-/

namespace Sbcl.InfoVector

open Function Limbs Memory List Nat
open Option (some_inj)

variable {ω : Type}

/-- The entries of a group: info numbers with their values. -/
abbrev Entries (ω : Type) := List (ℕ × Obj ω)

/-- Groups with their auxiliary keys. -/
abbrev AuxGroups (ω : Type) := List (ω × Entries ω)

structure Infos (ω : Type) where
  primary : Entries ω
  aux : AuxGroups ω

def groupFields (g : Entries ω) : List ℕ := g.length :: g.map Prod.fst

def groupCells (g : Entries ω) : List (Obj ω) :=
  .fixnum (1 + 2 * g.length) :: g.flatMap fun e => [.fixnum e.1, e.2]

def auxFields (aux : AuxGroups ω) : List ℕ := aux.flatMap fun a => groupFields a.2

def auxData (aux : AuxGroups ω) : List (Obj ω) :=
  aux.flatMap fun a => .other a.1 :: a.2.map Prod.snd

def auxCells (aux : AuxGroups ω) : List (Obj ω) := aux.flatMap fun a => .other a.1 :: groupCells a.2

def fieldsOf (g : Entries ω) (aux : AuxGroups ω) : List ℕ := groupFields g ++ auxFields aux

def dataOf (g : Entries ω) (aux : AuxGroups ω) : List (Obj ω) := g.map Prod.snd ++ auxData aux

def cellsOf (g : Entries ω) (aux : AuxGroups ω) : List (Obj ω) := groupCells g ++ auxCells aux

theorem fieldsOf_cons (g h : Entries ω) (k : ω) (aux : AuxGroups ω) :
    fieldsOf g ((k, h) :: aux) = groupFields g ++ fieldsOf h aux := by
  simp [fieldsOf, auxFields]

theorem dataOf_cons (g h : Entries ω) (k : ω) (aux : AuxGroups ω) :
    dataOf g ((k, h) :: aux) = g.map Prod.snd ++ .other k :: dataOf h aux := by
  simp [dataOf, auxData]

theorem cellsOf_cons (g h : Entries ω) (k : ω) (aux : AuxGroups ω) :
    cellsOf g ((k, h) :: aux) = groupCells g ++ .other k :: cellsOf h aux := by
  simp [cellsOf, auxCells]

@[simp] theorem length_groupFields (g : Entries ω) : (groupFields g).length = 1 + g.length := by
  simp [groupFields, Nat.add_comm]

@[simp] theorem length_groupCells (g : Entries ω) : (groupCells g).length = 1 + 2 * g.length := by
  simp [groupCells, Nat.mul_comm, Nat.add_comm]

theorem length_dataOf (g : Entries ω) (aux : AuxGroups ω) :
    (dataOf g aux).length + 1 = (fieldsOf g aux).length ∧
      (cellsOf g aux).length + 1 = 2 * (fieldsOf g aux).length := by
  induction aux generalizing g with
  | nil =>
    simp [dataOf, fieldsOf, cellsOf, auxFields, auxData, auxCells]
    omega
  | cons a aux ih =>
    obtain ⟨k, h⟩ := a
    obtain ⟨h1, h2⟩ := ih h
    rw [fieldsOf_cons, dataOf_cons, cellsOf_cons]
    simp
    omega

/-! ## Positions -/

theorem infosPerWord_eq : infosPerWord = 10 := by decide

/-- How many descriptors some fields take. -/
def descriptors (n : ℕ) : ℕ := (n + infosPerWord - 1) / infosPerWord

def fieldAt (p : PackedInfo ω) (t : ℕ) : ℕ :=
  packedInfoField p (t / infosPerWord) (t % infosPerWord)

def datumAt (p : PackedInfo ω) (d : ℕ) : Obj ω := p.ref (p.len - 1 - d)

/-- From field `t` and datum `d` on, `p` is a group and the auxiliary groups after it, to its end.
-/
structure At (p : PackedInfo ω) (t d : ℕ) (g : Entries ω) (aux : AuxGroups ω) : Prop where
  fields : Stored (fieldAt p) t (fieldsOf g aux)
  data : Stored (datumAt p) d (dataOf g aux)
  len : p.len = descriptors (t + (fieldsOf g aux).length) + (d + (dataOf g aux).length)

section Position
variable {p : PackedInfo ω} {t d : ℕ} {g : Entries ω} {aux : AuxGroups ω}

theorem At.count (h : At p t d g aux) : fieldAt p t = g.length := h.fields.head

theorem At.number (h : At p t d g aux) : Stored (fieldAt p) (t + 1) (g.map Prod.fst) :=
  (stored_cons.1 h.fields.left).2

theorem At.value (h : At p t d g aux) : Stored (datumAt p) d (g.map Prod.snd) := h.data.left

theorem At.next {k : ω} {e : Entries ω} (h : At p t d g ((k, e) :: aux)) :
    datumAt p (d + g.length) = .other k ∧ At p (t + (1 + g.length)) (d + (1 + g.length)) e aux := by
  have hf := h.fields
  have hd := h.data
  have hlen := h.len
  rw [fieldsOf_cons] at hf hlen
  rw [dataOf_cons] at hd hlen
  have hd' := stored_cons.1 hd.right
  simp only [length_map] at hd'
  refine ⟨hd'.1, ?_, ?_, ?_⟩
  · simpa using hf.right
  · rw [show d + (1 + g.length) = d + g.length + 1 by omega]
    exact hd'.2
  · simp only [length_append, length_groupFields, length_map, length_cons] at hlen
    rw [hlen, ← Nat.add_assoc t]
    omega

theorem At.len_nil (h : At p t d g []) :
    p.len = descriptors (t + (1 + g.length)) + (d + g.length) := by
  have := h.len
  simpa [fieldsOf, dataOf, auxFields, auxData] using this

theorem descriptors_mono {m n : ℕ} (h : m ≤ n) : descriptors m ≤ descriptors n :=
  Nat.div_le_div_right (by omega)

theorem At.len_cons {a : ω × Entries ω} (h : At p t d g (a :: aux)) :
    descriptors (t + (1 + g.length) + 1) + (d + (1 + g.length)) ≤ p.len := by
  obtain ⟨k, e⟩ := a
  have hnext := h.next.2
  have hf : 0 < (fieldsOf e aux).length := by rw [← (length_dataOf e aux).1]; omega
  have := descriptors_mono (show t + (1 + g.length) + 1 ≤
    t + (1 + g.length) + (fieldsOf e aux).length by omega)
  rw [hnext.len]
  omega

end Position

/-! ## Reading fields -/

/-- The iterator after `t` fields. -/
structure AtField (p : PackedInfo ω) (t : ℕ) (it : Iterator) : Prop where
  index : t + it.count = infosPerWord * it.descriptorIndex
  count_lt : it.count < infosPerWord
  word : 0 < it.count →
    it.word = (p.ref (t / infosPerWord)).index >>> (infoNumberBits * (t % infosPerWord))

theorem atField_zero (p : PackedInfo ω) : AtField p 0 ⟨0, 0, 0⟩ :=
  ⟨rfl, by decide, fun h => absurd h (lt_irrefl 0)⟩

variable {p : PackedInfo ω} {t : ℕ} {it : Iterator}

theorem nextField_spec (h : AtField p t it) :
    (nextField p it).1 = fieldAt p t ∧ AtField p (t + 1) (nextField p it).2 := by
  obtain ⟨hindex, hlt, hword⟩ := h
  have hfield :
    ∀ word, word = (p.ref (t / infosPerWord)).index >>> (infoNumberBits * (t % infosPerWord)) →
      word &&& infoNumMask = fieldAt p t := fun word hw => by rw [hw]; rfl
  have hstep :
    ∀ word, word = (p.ref (t / infosPerWord)).index >>> (infoNumberBits * (t % infosPerWord)) →
      (t + 1) % infosPerWord ≠ 0 → word >>> infoNumberBits =
        (p.ref ((t + 1) / infosPerWord)).index >>> (infoNumberBits * ((t + 1) % infosPerWord)) := by
    intro word hw hne
    rw [infosPerWord_eq] at hne hw ⊢
    rw [hw, ← shiftRight_add, show (t + 1) / 10 = t / 10 by omega,
      show (t + 1) % 10 = t % 10 + 1 by omega, mul_succ]
  unfold nextField
  by_cases h0 : it.count = 0
  · simp only [if_pos h0]
    rw [infosPerWord_eq] at *
    have hw : (p.ref it.descriptorIndex).index =
        (p.ref (t / 10)).index >>> (infoNumberBits * (t % 10)) := by
      rw [show t / 10 = it.descriptorIndex by omega, show t % 10 = 0 by omega]
      rfl
    refine ⟨hfield _ hw, ?_, ?_, fun hpos => hstep _ hw (by omega)⟩
    · dsimp only
      rw [infosPerWord_eq]
      omega
    · dsimp only
      rw [infosPerWord_eq]
      omega
  · simp only [if_neg h0]
    have hw := hword (Nat.pos_of_ne_zero h0)
    rw [infosPerWord_eq] at *
    refine ⟨hfield _ hw, ?_, ?_, fun hpos => hstep _ hw ?_⟩
    · dsimp only
      rw [infosPerWord_eq]
      omega
    · dsimp only
      rw [infosPerWord_eq]
      omega
    · dsimp only at hpos
      omega

/-! ## Unpacking -/

variable {g : Entries ω}

theorem stored_groupCells {v : ℕ → Obj ω} {j : ℕ} (h0 : v j = .fixnum (1 + 2 * g.length))
    (h : ∀ m e, g[m]? = some e → v (j + 1 + 2 * m) = .fixnum e.1 ∧ v (j + 1 + 2 * m + 1) = e.2) :
    Stored v j (groupCells g) := by
  refine stored_cons.2 ⟨h0, ?_⟩
  clear h0
  induction g generalizing j with
  | nil => exact stored_nil
  | cons e g ih =>
    rw [flatMap_cons, cons_append, cons_append, nil_append, stored_cons, stored_cons]
    obtain ⟨h1, h2⟩ := h 0 e rfl
    refine ⟨h1, h2, ih (j := j + 2) fun m e' hm => ?_⟩
    have := h (m + 1) e' hm
    rwa [show j + 1 + 2 * (m + 1) = j + 2 + 1 + 2 * m by ring] at this

theorem groupCells_spec {v : ℕ → Obj ω} {j : ℕ} (h : Stored v j (groupCells g)) :
    v j = .fixnum (1 + 2 * g.length) ∧
      ∀ m e, g[m]? = some e → v (j + 1 + 2 * m) = .fixnum e.1 ∧ v (j + 1 + 2 * m + 1) = e.2 := by
  obtain ⟨h0, htail⟩ := stored_cons.1 h
  refine ⟨h0, ?_⟩
  clear h h0
  induction g generalizing j with
  | nil => simp
  | cons e g ih =>
    rw [flatMap_cons, cons_append, cons_append, nil_append, stored_cons, stored_cons] at htail
    obtain ⟨h1, h2, htail⟩ := htail
    intro m e' hm
    cases m with
    | zero =>
      rw [getElem?_cons_zero, some_inj] at hm
      rw [← hm]
      exact ⟨h1, h2⟩
    | succ m =>
      have := ih (j := j + 2) htail m e' hm
      rwa [show j + 1 + 2 * (m + 1) = j + 2 + 1 + 2 * m by ring]

variable {d : ℕ} {aux : AuxGroups ω}

theorem unpackGroup_spec (j : ℕ)
    (output : SimpleVector ω) (h : At p t d g aux) (hit : AtField p (t + 1) it) :
    let s := dotimes g.length (it, update output j (.fixnum (1 + 2 * g.length))) fun iter s =>
      ((nextField p s.1).2, update (update s.2 (j + 1 + 2 * iter) (.fixnum (nextField p s.1).1))
        (j + 1 + 2 * iter + 1) (p.ref (p.len - d - 1 - iter)))
    AtField p (t + 1 + g.length) s.1 ∧ Stored s.2 j (groupCells g) ∧ ∀ q < j, s.2 q = output q := by
  intro s
  have hs : AtField p (t + 1 + g.length) s.1 ∧ s.2 j = .fixnum (1 + 2 * g.length) ∧
    (∀ q < j, s.2 q = output q) ∧
      ∀ m < g.length, s.2 (j + 1 + 2 * m) = .fixnum (fieldAt p (t + 1 + m)) ∧
        s.2 (j + 1 + 2 * m + 1) = datumAt p (d + m) := by
    refine dotimes_induction (P :=
      fun iter (s : Iterator × SimpleVector ω) => AtField p (t + 1 + iter) s.1 ∧
      s.2 j = .fixnum (1 + 2 * g.length) ∧ (∀ q < j, s.2 q = output q) ∧
      ∀ m < iter, s.2 (j + 1 + 2 * m) = .fixnum (fieldAt p (t + 1 + m)) ∧
        s.2 (j + 1 + 2 * m + 1) = datumAt p (d + m))
      ⟨hit, update_self .., fun q hq => update_of_ne hq.ne _ _,
        fun m hm => absurd hm m.not_lt_zero⟩ ?_
    rintro iter hiter ⟨it, v⟩ ⟨hit, hj, hq, hm⟩
    obtain ⟨hfield, hnext⟩ := nextField_spec hit
    refine ⟨hnext, ?_, fun q hlt => ?_, fun m hlt => ?_⟩
    · dsimp only
      rw [update_of_ne (by omega), update_of_ne (by omega)]
      exact hj
    · dsimp only
      rw [update_of_ne (by omega), update_of_ne (by omega)]
      exact hq q hlt
    dsimp only
    rcases Nat.lt_succ_iff_lt_or_eq.1 hlt with hlt | rfl
    · rw [update_of_ne (by omega), update_of_ne (by omega), update_of_ne (by omega),
        update_of_ne (by omega)]
      exact hm m hlt
    rw [update_self, update_of_ne (by omega), update_self, hfield]
    refine ⟨rfl, ?_⟩
    unfold datumAt
    rw [show p.len - d - 1 - m = p.len - 1 - (d + m) by omega]
  obtain ⟨hit', h0, hq, hm⟩ := hs
  refine ⟨hit', stored_groupCells h0 fun m e he => ?_, hq⟩
  obtain ⟨hnum, hval⟩ := hm m (List.getElem?_eq_some_iff.1 he).1
  rw [hnum, hval]
  exact ⟨congrArg Obj.fixnum (h.number m e.1 (by simp [he])), h.value m e.2 (by simp [he])⟩

theorem descriptorIndex_eq (h : AtField p t it) :
    it.descriptorIndex = descriptors t := by
  obtain ⟨hindex, hlt, -⟩ := h
  unfold descriptors
  rw [infosPerWord_eq] at *
  omega

theorem unpackifyLoop_spec (j : ℕ)
    (output : SimpleVector ω) (h : At p t d g aux) (hit : AtField p t it) :
    Stored (unpackifyLoop p (p.len - d) j it output) j (cellsOf g aux) ∧
      ∀ q < j, unpackifyLoop p (p.len - d) j it output q = output q := by
  induction aux generalizing t d g it j output with
  | nil =>
    obtain ⟨hcount, hit'⟩ := nextField_spec hit
    rw [h.count] at hcount
    obtain ⟨hit'', hstored, hq⟩ := unpackGroup_spec j output h hit'
    unfold unpackifyLoop
    dsimp only
    rw [hcount]
    generalize dotimes g.length (_ : Iterator × SimpleVector ω) _ = s at hit'' hstored hq ⊢
    have hlen := h.len_nil
    have hindex := descriptorIndex_eq hit''
    rw [if_neg (by rw [hindex, Nat.add_assoc]; omega)]
    refine ⟨?_, hq⟩
    unfold cellsOf auxCells
    simpa using hstored
  | cons a aux ih =>
    obtain ⟨k, e⟩ := a
    obtain ⟨hcount, hit'⟩ := nextField_spec hit
    rw [h.count] at hcount
    obtain ⟨hit'', hstored, hq⟩ := unpackGroup_spec j output h hit'
    unfold unpackifyLoop
    dsimp only
    rw [hcount]
    generalize dotimes g.length (_ : Iterator × SimpleVector ω) _ = s at hit'' hstored hq ⊢
    have hlen := h.len_cons
    have hindex := descriptorIndex_eq hit''
    have hmono := descriptors_mono (show t + 1 + g.length ≤ t + (1 + g.length) + 1 by omega)
    rw [if_pos (by rw [hindex]; omega)]
    obtain ⟨hkey, hnext⟩ := h.next
    have hkey' : p.ref (p.len - d - g.length - 1) = .other k := by
      rw [← hkey]
      unfold datumAt
      rw [show p.len - 1 - (d + g.length) = p.len - d - g.length - 1 by omega]
    obtain ⟨hrest, hframe⟩ := ih (j + 1 + 2 * g.length + 1)
      (update s.2 (j + 1 + 2 * g.length) (p.ref (p.len - d - g.length - 1))) hnext
      (by rw [← Nat.add_assoc]; exact hit'')
    rw [show p.len - d - g.length - 1 = p.len - (d + (1 + g.length)) by omega] at *
    have hcells : cellsOf g ((k, e) :: aux) = groupCells g ++ .other k :: cellsOf e aux :=
      cellsOf_cons ..
    rw [hcells, stored_append, stored_cons, length_groupCells]
    refine ⟨⟨?_, ?_, ?_⟩, fun q hlt => ?_⟩
    · refine hstored.congr fun m hm => ?_
      rw [length_groupCells] at hm
      rw [hframe _ (by omega), update_of_ne (by omega)]
    · rw [show j + (1 + 2 * g.length) = j + 1 + 2 * g.length by omega,
        hframe _ (by omega), update_self]
      exact hkey'
    · rw [show j + (1 + 2 * g.length) = j + 1 + 2 * g.length by omega]
      exact hrest
    · rw [hframe q (by omega), update_of_ne (by omega)]
      exact hq q hlt

theorem totalNFieldsLoop_spec (h : At p t d g aux) :
    totalNFieldsLoop p (p.len - d) (t / infosPerWord)
      (t % infosPerWord) t = t + (fieldsOf g aux).length := by
  induction aux generalizing t d g with
  | nil =>
    have hcount : packedInfoField p (t / infosPerWord) (t % infosPerWord) = g.length := h.count
    have hlen := h.len_nil
    unfold totalNFieldsLoop
    dsimp only
    unfold descriptors at hlen
    rw [hcount, if_neg (by rw [infosPerWord_eq] at *; omega)]
    simp [fieldsOf, auxFields]
  | cons a aux ih =>
    obtain ⟨k, e⟩ := a
    have hcount : packedInfoField p (t / infosPerWord) (t % infosPerWord) = g.length := h.count
    have hlen := h.len_cons
    unfold totalNFieldsLoop
    unfold descriptors at hlen
    rw [hcount, if_pos (by rw [infosPerWord_eq] at *; omega), Nat.sub_sub,
      ih h.next.2, fieldsOf_cons, length_append, length_groupFields, Nat.add_assoc]

/-- `p` is the packed form of the groups. -/
def Packs (p : PackedInfo ω) (info : Infos ω) : Prop := At p 0 0 info.primary info.aux

def Infos.fields (info : Infos ω) : List ℕ := fieldsOf info.primary info.aux

def Infos.data (info : Infos ω) : List (Obj ω) := dataOf info.primary info.aux

def Infos.cells (info : Infos ω) : List (Obj ω) := cellsOf info.primary info.aux

variable {info : Infos ω}

theorem computeUnpackifiedInfoSize_spec (h : Packs p info) :
    computeUnpackifiedInfoSize p = info.cells.length := by
  have htotal := totalNFieldsLoop_spec h
  rw [Nat.sub_zero, Nat.zero_div, zero_mod, Nat.zero_add] at htotal
  have hlen := (length_dataOf info.primary info.aux).2
  unfold computeUnpackifiedInfoSize Infos.cells
  rw [htotal]
  omega

theorem unpackifyInfos_spec (h : Packs p info) (output : SimpleVector ω) :
    Stored (unpackifyInfos p output) 0 info.cells :=
  (unpackifyLoop_spec 0 output h (atField_zero p)).1

/-! ## Packing -/

/-- The groups have counts and numbers that are fields. -/
def Fit (g : Entries ω) (aux : AuxGroups ω) : Prop := ∀ x ∈ fieldsOf g aux, x < 2 ^ infoNumberBits

/-- What `packify-infos` has written, in `n` cells of which the first `dMax` are for descriptors. -/
structure Wrote (s : Packer ω) (n dMax : ℕ) (fs : List ℕ) (ds : List (Obj ω)) : Prop where
  k_eq : s.k + ds.length = n
  j_eq : s.j = fs.length / infosPerWord
  shift : s.fieldShift = infoNumberBits * (fs.length % infosPerWord)
  word_lt : s.word < 2 ^ (infoNumberBits * (fs.length % infosPerWord))
  word : ∀ r < fs.length % infosPerWord,
    fs[infosPerWord * s.j + r]? = some (field infoNumberBits s.word r)
  output : ∀ m < infosPerWord * s.j,
    fs[m]? = some (field infoNumberBits (s.output (m / infosPerWord)).index (m % infosPerWord))
  data : ∀ m < ds.length, ds[m]? = some (s.output (n - 1 - m))
  fields_le : fs.length ≤ infosPerWord * dMax
  data_le : dMax + ds.length ≤ n

section Writing
variable {s : Packer ω} {n dMax : ℕ} {fs : List ℕ} {ds : List (Obj ω)}

theorem putField_wrote (h : Wrote s n dMax fs ds) (val : ℕ) (hval : val < 2 ^ infoNumberBits)
    (hroom : fs.length + 1 ≤ infosPerWord * dMax) :
    Wrote (putField s val) n dMax (fs ++ [val]) ds := by
  obtain ⟨hk, hj, hshift, hlt, hword, hout, hdata, hf, hd⟩ := h
  have hput : val <<< s.fieldShift ||| s.word =
      putTop infoNumberBits s.word (fs.length % infosPerWord) val := by
    rw [hshift]
    rfl
  -- The fields of the descriptor that is being filled.
  have hnew : ∀ r < fs.length % infosPerWord + 1, (fs ++ [val])[infosPerWord * s.j + r]? =
      some (field infoNumberBits
        (putTop infoNumberBits s.word (fs.length % infosPerWord) val) r) := by
    intro r hr
    rcases Nat.lt_succ_iff_lt_or_eq.1 hr with hr | rfl
    · rw [field_putTop_of_lt hlt hr, getElem?_append_left, hword r hr]
      rw [hj]
      have := div_add_mod fs.length infosPerWord
      omega
    · rw [field_putTop_self hlt hval, hj, div_add_mod]
      simp
  have hold : ∀ m < infosPerWord * s.j, (fs ++ [val])[m]? =
      some (field infoNumberBits (s.output (m / infosPerWord)).index (m % infosPerWord)) := by
    intro m hm
    rw [getElem?_append_left, hout m hm]
    rw [hj] at hm
    have := div_add_mod fs.length infosPerWord
    omega
  unfold putField
  rw [hput]
  by_cases hlast : s.fieldShift < (infosPerWord - 1) * infoNumberBits
  · have hmod : fs.length % infosPerWord < infosPerWord - 1 := by
      rw [hshift, Nat.mul_comm] at hlast
      exact Nat.lt_of_mul_lt_mul_right hlast
    have hdiv : (fs.length + 1) / infosPerWord = fs.length / infosPerWord ∧
        (fs.length + 1) % infosPerWord = fs.length % infosPerWord + 1 := by
      rw [infosPerWord_eq] at *
      omega
    rw [if_pos hlast]
    refine ⟨hk, ?_, ?_, ?_, ?_, hold, hdata, ?_, hd⟩
    · rw [length_append, length_singleton, hdiv.1, hj]
    · rw [length_append, length_singleton, hdiv.2, hshift, mul_succ]
    · rw [length_append, length_singleton, hdiv.2]
      exact putTop_lt hlt hval
    · rw [length_append, length_singleton, hdiv.2]
      exact hnew
    · rw [length_append, length_singleton]
      exact hroom
  · have hmod : fs.length % infosPerWord = infosPerWord - 1 := by
      have hlt : fs.length % infosPerWord < infosPerWord := Nat.mod_lt _ (by decide)
      have hge : infosPerWord - 1 ≤ fs.length % infosPerWord := by
        rw [hshift, Nat.mul_comm] at hlast
        by_contra hc
        exact hlast (Nat.mul_lt_mul_of_pos_right (not_le.1 hc) (by decide))
      omega
    have hdiv : (fs.length + 1) / infosPerWord = fs.length / infosPerWord + 1 ∧
        (fs.length + 1) % infosPerWord = 0 := by
      rw [infosPerWord_eq] at *
      omega
    have hj' : s.j + 1 ≤ dMax := by
      rw [infosPerWord_eq] at *
      omega
    rw [if_neg hlast]
    refine ⟨hk, ?_, ?_, ?_, ?_, fun m hm => ?_, fun m hm => ?_, ?_, hd⟩
    · rw [length_append, length_singleton, hdiv.1, hj]
    · rw [length_append, length_singleton, hdiv.2]
      rfl
    · rw [length_append, length_singleton, hdiv.2]
      exact Nat.one_pos
    · rw [length_append, length_singleton, hdiv.2]
      exact fun r hr => absurd hr r.not_lt_zero
    · dsimp only at hm ⊢
      rcases Nat.lt_or_ge m (infosPerWord * s.j) with hlt | hge
      · rw [update_of_ne, hold m hlt]
        rw [infosPerWord_eq] at *
        omega
      have hr := hnew (m - infosPerWord * s.j) (by rw [hmod]; rw [infosPerWord_eq] at *; omega)
      rw [show m / infosPerWord = s.j by rw [infosPerWord_eq] at *; omega, update_self]
      rw [Nat.add_sub_cancel' hge] at hr
      rw [hr, show m % infosPerWord = m - infosPerWord * s.j by rw [infosPerWord_eq] at *; omega]
      rfl
    · dsimp only
      rw [update_of_ne (by omega)]
      exact hdata m hm
    · rw [length_append, length_singleton]
      exact hroom

theorem putDatum_wrote (h : Wrote s n dMax fs ds) (x : Obj ω) (hroom : dMax + ds.length + 1 ≤ n) :
    Wrote (putDatum s x) n dMax fs (ds ++ [x]) := by
  obtain ⟨hk, hj, hshift, hlt, hword, hout, hdata, hf, hd⟩ := h
  unfold putDatum
  refine ⟨?_, hj, hshift, hlt, hword, fun m hm => ?_, fun m hm => ?_, hf, ?_⟩
  · rw [length_append, length_singleton]
    dsimp only
    omega
  · dsimp only at hm ⊢
    rw [update_of_ne, hout m hm]
    rw [infosPerWord_eq] at *
    omega
  · dsimp only
    rw [length_append, length_singleton] at hm
    rcases Nat.lt_succ_iff_lt_or_eq.1 hm with hm | rfl
    · rw [update_of_ne (by omega), getElem?_append_left hm]
      exact hdata m hm
    · rw [show n - 1 - ds.length = s.k - 1 by omega, update_self]
      simp
  · rw [length_append, length_singleton]
    omega

theorem packGroup_wrote {input : SimpleVector ω} {i : ℕ} {g : Entries ω} (h : Wrote s n dMax fs ds)
    (hinput : Stored input i (groupCells g)) (hfit : ∀ x ∈ groupFields g, x < 2 ^ infoNumberBits)
    (hf : fs.length + (1 + g.length) ≤ infosPerWord * dMax)
    (hd : dMax + (ds.length + g.length) ≤ n) :
    Wrote (dotimes g.length (putField s g.length) fun iter s =>
      putDatum (putField s (input (i + 1 + 2 * iter)).index) (input (i + 1 + 2 * iter + 1))) n dMax
      (fs ++ groupFields g) (ds ++ g.map Prod.snd) := by
  obtain ⟨-, hentry⟩ := groupCells_spec hinput
  have hloop := dotimes_induction (n := g.length) (s := putField s g.length)
    (f := fun iter s => putDatum (putField s (input (i + 1 + 2 * iter)).index)
      (input (i + 1 + 2 * iter + 1)))
    (P := fun iter s => Wrote s n dMax (fs ++ g.length :: (g.take iter).map Prod.fst) (ds ++
      (g.take iter).map Prod.snd))
    (by
      have := putField_wrote h g.length (hfit g.length (mem_cons_self ..)) (by omega)
      simpa using this)
    fun iter hiter s hs => by
      obtain ⟨hnum, hval⟩ := hentry iter g[iter] (getElem?_eq_getElem hiter)
      rw [hnum, hval]
      have htake : g.take (iter + 1) = g.take iter ++ [g[iter]] := by
        rw [take_add_one]; simp [hiter]
      have hlen : (g.take iter).length = iter := length_take_of_le hiter.le
      have h1 := putField_wrote hs g[iter].1
        (hfit _ (mem_cons_of_mem _ (mem_map_of_mem (getElem_mem hiter))))
        (by simp only [length_append, length_cons, length_map, hlen]; omega)
      have h2 := putDatum_wrote h1 g[iter].2 (by simp only [length_append, length_map, hlen]; omega)
      rw [htake, map_append, map_append, ← append_assoc ds, ← cons_append, ← append_assoc fs]
      exact h2
  rw [take_length] at hloop
  exact hloop

theorem packifyLoop_wrote {input : SimpleVector ω} {i : ℕ} (last : ℕ) {g : Entries ω}
    {aux : AuxGroups ω}
    (h : Wrote s n dMax fs ds) (hinput : Stored input i (cellsOf g aux))
    (hlast : last = i + (cellsOf g aux).length)
    (hfit : Fit g aux) (hf : fs.length + (fieldsOf g aux).length ≤ infosPerWord * dMax)
    (hd : dMax + (ds.length + (dataOf g aux).length) ≤ n) :
    Wrote (packifyLoop input last i s) n dMax (fs ++ fieldsOf g aux) (ds ++ dataOf g aux) := by
  induction aux generalizing i s fs ds g with
  | nil =>
    simp only [cellsOf, fieldsOf, dataOf, auxCells, auxFields, auxData, flatMap_nil,
      append_nil] at *
    have hcount := (groupCells_spec hinput).1
    rw [length_groupFields] at hf
    rw [length_map] at hd
    have hgroup := packGroup_wrote h hinput (by simpa [Fit, fieldsOf, auxFields] using hfit) hf hd
    unfold packifyLoop
    dsimp only
    rw [hcount, show (Obj.fixnum (ω := ω) (1 + 2 * g.length)).index / 2 = g.length by
      show (1 + 2 * g.length) / 2 = g.length
      omega]
    rw [length_groupCells] at hlast
    rw [if_pos (by omega)]
    exact hgroup
  | cons a aux ih =>
    obtain ⟨k, e⟩ := a
    rw [cellsOf_cons] at hinput hlast
    rw [fieldsOf_cons] at hf ⊢
    rw [dataOf_cons] at hd ⊢
    have hcount := (groupCells_spec hinput.left).1
    have hrest := stored_cons.1 hinput.right
    simp only [length_append, length_cons, length_map, length_groupFields, length_groupCells] at *
    have hfit' : ∀ x, x ∈ groupFields g ∨ x ∈ fieldsOf e aux → x < 2 ^ infoNumberBits := by
      unfold Fit at hfit
      rw [fieldsOf_cons] at hfit
      exact fun x hx => hfit x (mem_append.2 hx)
    have hgroup :=
      packGroup_wrote h hinput.left (fun x hx => hfit' x (.inl hx)) (by omega) (by omega)
    unfold packifyLoop
    rw [hcount, show (Obj.fixnum (ω := ω) (1 + 2 * g.length)).index / 2 = g.length by
      show (1 + 2 * g.length) / 2 = g.length
      omega]
    rw [if_neg (by omega)]
    have hkey := putDatum_wrote hgroup (.other k)
      (by simp only [length_append, length_map]; omega)
    rw [show i + 1 + 2 * g.length = i + (1 + 2 * g.length) by omega, hrest.1]
    have hres := ih hkey hrest.2 (by omega) (fun x hx => hfit' x (.inr hx))
      (by simp only [length_append, length_groupFields]; omega)
      (by simp only [length_append, length_map, length_singleton]; omega)
    simpa using hres

end Writing

variable {input : SimpleVector ω}

theorem computePackifiedInfoSizeLoop_spec {i last : ℕ} (nFields : ℕ)
    (hinput : Stored input i (cellsOf g aux)) (hlast : last = i + (cellsOf g aux).length) :
    computePackifiedInfoSizeLoop input last i nFields =
      descriptors (nFields + (fieldsOf g aux).length) +
        (nFields + (fieldsOf g aux).length - 1) := by
  induction aux generalizing i nFields g with
  | nil =>
    simp only [cellsOf, fieldsOf, auxCells, auxFields, flatMap_nil, append_nil] at *
    have hcount := (groupCells_spec hinput).1
    rw [length_groupCells] at hlast
    unfold computePackifiedInfoSizeLoop
    dsimp only
    rw [hcount, show (Obj.fixnum (ω := ω) (1 + 2 * g.length)).index = 1 + 2 * g.length from rfl,
      if_pos (by omega), length_groupFields, show (1 + 2 * g.length) / 2 = g.length by omega]
    rfl
  | cons a aux ih =>
    obtain ⟨k, e⟩ := a
    rw [cellsOf_cons] at hinput hlast
    have hcount := (groupCells_spec hinput.left).1
    have hrest := stored_cons.1 hinput.right
    simp only [length_append, length_cons, length_groupCells] at hrest hlast
    unfold computePackifiedInfoSizeLoop
    rw [hcount, show (Obj.fixnum (ω := ω) (1 + 2 * g.length)).index = 1 + 2 * g.length from rfl]
    have hpos : 0 < (cellsOf e aux).length := by
      have := length_dataOf e aux
      omega
    rw [if_neg (by omega), show i + (1 + (1 + 2 * g.length)) = i + (1 + 2 * g.length) + 1 by omega,
      ih _ hrest.2 (by omega), fieldsOf_cons, length_append, length_groupFields,
      show (1 + 2 * g.length) / 2 = g.length by omega, Nat.add_assoc nFields]

theorem computePackifiedInfoSize_spec (g : Entries ω) (aux : AuxGroups ω)
    (hinput : Stored input 0 (cellsOf g aux)) :
    computePackifiedInfoSize input (cellsOf g aux).length =
      descriptors (fieldsOf g aux).length + (dataOf g aux).length := by
  have h := computePackifiedInfoSizeLoop_spec 0 hinput (Nat.zero_add _).symm
  have hlen := (length_dataOf g aux).1
  unfold computePackifiedInfoSize
  rw [h, Nat.zero_add]
  omega

theorem packs_of_wrote {s : Packer ω} {n : ℕ}
    (h : Wrote s n (descriptors (fieldsOf info.primary info.aux).length)
      (fieldsOf info.primary info.aux) (dataOf info.primary info.aux))
    (hn : n = descriptors (fieldsOf info.primary info.aux).length +
      (dataOf info.primary info.aux).length) :
    let s' := if s.fieldShift = 0 then s
      else { s with output := update s.output s.j (.fixnum s.word), j := s.j + 1 }
    s'.j = s'.k ∧ Packs ⟨n, s'.output⟩ info := by
  unfold Packs
  generalize info.primary = g at *
  generalize info.aux = aux at *
  obtain ⟨hk, hj, hshift, hlt, hword, hout, hdata, hf, hd⟩ := h
  have hdesc : descriptors (fieldsOf g aux).length = ((fieldsOf g aux).length + 10 - 1) / 10 := by
    unfold descriptors
    rw [infosPerWord_eq]
  have hshift' : s.fieldShift = 6 * ((fieldsOf g aux).length % 10) := by
    rw [hshift, infosPerWord_eq]
    rfl
  rw [infosPerWord_eq] at *
  intro s'
  by_cases h0 : s.fieldShift = 0
  · have hs' : s' = s := if_pos h0
    rw [hs']
    have hj' : s.j = s.k := by omega
    refine ⟨hj', ⟨fun m x hm => ?_, fun m x hm => ?_, by simpa using hn⟩⟩
    · have hlen := (List.getElem?_eq_some_iff.1 hm).1
      have := hout m (by omega)
      rw [hm, some_inj] at this
      rw [this, Nat.zero_add]
      unfold fieldAt packedInfoField
      rw [infosPerWord_eq]
      rfl
    · have := hdata m (List.getElem?_eq_some_iff.1 hm).1
      rw [hm, some_inj] at this
      rw [this, Nat.zero_add]
      rfl
  · have hs' : s' = { s with output := update s.output s.j (.fixnum s.word), j := s.j + 1 } :=
      if_neg h0
    rw [hs']
    have hj' : s.j + 1 = s.k := by omega
    refine ⟨hj', ⟨fun m x hm => ?_, fun m x hm => ?_, by simpa using hn⟩⟩
    · have hlen := (List.getElem?_eq_some_iff.1 hm).1
      rw [Nat.zero_add]
      unfold fieldAt packedInfoField
      dsimp only
      rw [infosPerWord_eq]
      rcases Nat.lt_or_ge m (10 * s.j) with hlt | hge
      · have := hout m hlt
        rw [hm, some_inj] at this
        rw [this, update_of_ne (by omega)]
        rfl
      · have := hword (m - 10 * s.j) (by omega)
        rw [Nat.add_sub_cancel' hge, hm, some_inj] at this
        rw [this, show m / 10 = s.j by omega, update_self, show m % 10 = m - 10 * s.j by omega]
        rfl
    · have hlen := (List.getElem?_eq_some_iff.1 hm).1
      have := hdata m hlen
      rw [hm, some_inj] at this
      rw [this, Nat.zero_add]
      unfold datumAt
      dsimp only
      rw [update_of_ne (by omega)]

theorem packifyInfos_spec (hinput : Stored input 0 info.cells)
    (hfit : Fit info.primary info.aux) : ∃ p, packifyInfos input info.cells.length = some p ∧
      Packs p info := by
  have hsize := computePackifiedInfoSize_spec info.primary info.aux hinput
  have hempty : Wrote (⟨fun _ => .fixnum 0, 0, descriptors (fieldsOf info.primary info.aux).length +
      (dataOf info.primary info.aux).length, 0, 0⟩ :
        Packer ω) (descriptors (fieldsOf info.primary info.aux).length +
        (dataOf info.primary info.aux).length) (descriptors (fieldsOf info.primary info.aux).length)
          [] [] :=
    ⟨rfl, rfl, rfl, Nat.one_pos, fun r hr => absurd hr r.not_lt_zero,
      fun m hm => absurd hm m.not_lt_zero,
      fun m hm => absurd hm m.not_lt_zero, Nat.zero_le _, Nat.le_add_right _ _⟩
  have hroom : (fieldsOf info.primary info.aux).length ≤
      infosPerWord * descriptors (fieldsOf info.primary info.aux).length := by
    unfold descriptors
    rw [infosPerWord_eq]
    omega
  have hwrote := packifyLoop_wrote info.cells.length hempty hinput (Nat.zero_add _).symm hfit
    (by simpa using hroom) (by simp)
  rw [nil_append, nil_append] at hwrote
  obtain ⟨hjk, hpacks⟩ := packs_of_wrote hwrote rfl
  unfold packifyInfos
  rw [show computePackifiedInfoSize input info.cells.length = _ from hsize]
  rw [if_pos hjk]
  exact ⟨_, rfl, hpacks⟩

end Sbcl.InfoVector
