import Mathlib.Data.Finset.Card
import Sbcl.Globaldb.InfoPacking

/-!
# Packed info: correctness

* `infoFindAuxKeyPacked_some`, `infoFindAuxKeyPacked_none` : the search for an auxiliary key among
  the descriptors;
* `valueIndexLoop_spec` : the search for an info number, descriptor by descriptor;
* `Infos.Valid`, `Infos.lookup` : the conventions that the shortcuts rely on, and what the groups
  say;
* `packedInfoInsert_spec`, `packedInfoRemove_spec` : the operations, which keep the conventions;
* `packed_info_run` : any sequence of operations.
-/

namespace Sbcl.InfoVector

open Function Limbs Memory Nat
open List (append_nil cons_append find?_append find?_cons find?_eq_none length_append length_cons
  length_eq_zero_iff length_map length_nil map_append map_cons map_subset map_tail mem_append
  mem_cons mem_cons_of_mem mem_cons_self mem_map mem_map_of_mem nil_append nodup_cons perm_middle
  tail_cons)
open Option (bind_eq_bind bind_some map_map map_some some_inj some_ne_none)

variable {ω : Type}
variable {es rest : Entries ω} {info' : Infos ω} {after before : List (Obj ω)} {a x y : Obj ω}
  {k : ω} {i j last oldSize size : ℕ}

/-! ## Auxiliary keys in packed form -/

/-- The indices before a group. -/
def cursor (p : PackedInfo ω) (t d : ℕ) : Cursor := ⟨p.len - d, t / infosPerWord, t % infosPerWord⟩

theorem carryField_eq {d f : ℕ} (h : infosPerWord ≤ f) :
    carryField d f = (d + f / infosPerWord, f % infosPerWord) := by
  fun_induction carryField d f with
  | case1 d f hlt =>
    rw [infosPerWord_eq] at *
    rw [show f / 10 = 1 by omega, show f % 10 = f - 10 by omega]
  | case2 d f hge ih =>
    rw [ih (by omega)]
    rw [infosPerWord_eq] at *
    rw [show d + 1 + (f - 10) / 10 = d + f / 10 by omega, show (f - 10) % 10 = f % 10 by omega]

section Skip
variable {p : PackedInfo ω} {t d : ℕ} {g : Entries ω} {aux : AuxGroups ω}

theorem skip_nil (h : At p t d g []) : skip (cursor p t d) g.length = none := by
  have hlen := h.len_nil
  unfold descriptors at hlen
  unfold skip cursor
  dsimp only
  by_cases h1 : p.len - d ≤ t / infosPerWord + (1 + g.length)
  · rw [if_pos h1]
  rw [infosPerWord_eq] at *
  rw [if_neg h1, if_neg (by omega), carryField_eq (by rw [infosPerWord_eq]; omega)]
  rw [infosPerWord_eq, if_neg (by omega)]

theorem skip_cons {a : ω × Entries ω} (h : At p t d g (a :: aux)) :
    skip (cursor p t d) g.length = some (cursor p (t + (1 + g.length)) (d + (1 + g.length))) := by
  have hlen := h.len_cons
  unfold descriptors at hlen
  unfold skip cursor
  dsimp only
  rw [infosPerWord_eq] at *
  rw [if_neg (by omega), Nat.sub_sub]
  by_cases h1 : t % 10 + (1 + g.length) < 10
  · rw [if_pos h1, show (t + (1 + g.length)) / 10 = t / 10 by omega,
      show (t + (1 + g.length)) % 10 = t % 10 + (1 + g.length) by omega]
  rw [if_neg h1, carryField_eq (by rw [infosPerWord_eq]; omega)]
  rw [infosPerWord_eq, if_pos (by omega), show t / 10 + (t % 10 + (1 + g.length)) / 10 =
    (t + (1 + g.length)) / 10 by omega,
    show (t % 10 + (1 + g.length)) % 10 = (t + (1 + g.length)) % 10 by omega]

theorem ref_cursor_next {e : Entries ω} (h : At p t d g ((k, e) :: aux)) :
    p.ref (cursor p (t + (1 + g.length)) (d + (1 + g.length))).dataIdx = .other k := by
  rw [← h.next.1]
  unfold cursor datumAt
  rw [show p.len - (d + (1 + g.length)) = p.len - 1 - (d + g.length) by omega]

theorem field_cursor (h : At p t d g aux) :
    packedInfoField p (cursor p t d).descriptorIdx (cursor p t d).fieldIdx = g.length := h.count

variable [DecidableEq ω]

theorem findAuxKeyPackedLoop_some {e : Entries ω} {pre post : AuxGroups ω}
    (hpre : ∀ a ∈ pre, a.1 ≠ k) (h : At p t d g (pre ++ (k, e) :: post)) :
    ∃ t', findAuxKeyPackedLoop p k (cursor p t d) =
      some (cursor p t' (d + (dataOf g pre).length + 1)) ∧
      At p t' (d + (dataOf g pre).length + 1) e post := by
  induction pre generalizing t d g with
  | nil =>
    unfold findAuxKeyPackedLoop
    rw [field_cursor h, skip_cons h]
    dsimp only
    rw [if_pos (ref_cursor_next h)]
    have hlen : d + (dataOf g []).length + 1 = d + (1 + g.length) := by
      simp [dataOf, auxData]
      omega
    rw [hlen]
    exact ⟨_, rfl, h.next.2⟩
  | cons a pre ih =>
    obtain ⟨k', e'⟩ := a
    rw [cons_append] at h
    unfold findAuxKeyPackedLoop
    rw [field_cursor h, skip_cons h]
    dsimp only
    rw [ref_cursor_next h, if_neg (by simpa using hpre (k', e') (mem_cons_self ..))]
    have hlen : d + (dataOf g ((k', e') :: pre)).length + 1 =
        d + (1 + g.length) + (dataOf e' pre).length + 1 := by
      rw [dataOf_cons]
      simp
      omega
    rw [hlen]
    exact ih (fun a ha => hpre a (mem_cons_of_mem _ ha)) h.next.2

theorem findAuxKeyPackedLoop_none (hk : ∀ a ∈ aux, a.1 ≠ k) (h : At p t d g aux) :
    findAuxKeyPackedLoop p k (cursor p t d) = none := by
  induction aux generalizing t d g with
  | nil =>
    unfold findAuxKeyPackedLoop
    rw [field_cursor h, skip_nil h]
  | cons a aux ih =>
    obtain ⟨k', e'⟩ := a
    unfold findAuxKeyPackedLoop
    rw [field_cursor h, skip_cons h]
    dsimp only
    rw [ref_cursor_next h, if_neg (by simpa using hk (k', e') (mem_cons_self ..))]
    exact ih (fun a ha => hk a (mem_cons_of_mem _ ha)) h.next.2

end Skip

/-! ## Info numbers in packed form -/

/-- Is an entry about the info number? -/
def isNumber (n : ℕ) (e : ℕ × Obj ω) : Bool := e.1 = n

theorem scanDescriptor_spec (n : ℕ) {j descriptor : ℕ}
    (h : ∀ m e, es[m]? = some e → field infoNumberBits descriptor m = e.1) :
    scanDescriptor n es.length j descriptor = (es.findIdx? (isNumber n)).map (j + ·) := by
  induction es generalizing j descriptor with
  | nil => rfl
  | cons e es ih =>
    have h0 : descriptor &&& infoNumMask = e.1 := h 0 e rfl
    have hrest : scanDescriptor n es.length (j + 1) (descriptor >>> infoNumberBits) =
        (es.findIdx? (isNumber n)).map (j + 1 + ·) := ih fun m e' hm => by
      have := h (m + 1) e' hm
      rw [← this, Nat.add_comm m 1, ← field_shiftRight, Nat.mul_one]
    rw [length_cons, scanDescriptor, h0, List.findIdx?_cons, hrest]
    by_cases hn : n = e.1
    · rw [if_pos hn, if_pos (by simp [isNumber, hn])]
      rfl
    rw [if_neg hn, if_neg (by simpa [isNumber] using Ne.symm hn), map_map]
    congr 1
    funext m
    simp only [Function.comp]
    omega

theorem field_word {p : PackedInfo ω} {t w m : ℕ} (ht : t = infosPerWord * w)
    (hm : m < infosPerWord) : field infoNumberBits (p.ref w).index m = fieldAt p (t + m) := by
  unfold fieldAt packedInfoField
  rw [infosPerWord_eq] at *
  rw [show (t + m) / 10 = w by omega, show (t + m) % 10 = m by omega]
  rfl

theorem valueIndexLoop_spec {p : PackedInfo ω} (n t x w descriptor : ℕ) (es rest : Entries ω)
    (hes : ∀ m e, es[m]? = some e → field infoNumberBits descriptor m = e.1)
    (hrest : Stored (fieldAt p) (t + es.length) (rest.map Prod.fst))
    (hword : rest ≠ [] → t + es.length = infosPerWord * (w + 1))
    (hroom : descriptors (t + es.length + rest.length) + es.length + rest.length ≤ x) :
    valueIndexLoop p n x w (es.length + rest.length) es.length descriptor =
      some (((es ++ rest).findIdx? (isNumber n)).map fun j => x - j - 1) := by
  obtain ⟨r, hr⟩ : ∃ r, rest.length = r := ⟨_, rfl⟩
  induction r using Nat.strong_induction_on generalizing t x w descriptor es rest with
  | _ r ih =>
    unfold valueIndexLoop
    rw [scanDescriptor_spec n hes, List.findIdx?_append]
    cases hfind : es.findIdx? (isNumber n) with
    | some j => simp
    | none =>
      rw [Option.map_none, Nat.add_sub_cancel_left]
      dsimp only
      cases rest with
      | nil => rfl
      | cons e rest =>
        replace hword := hword (List.cons_ne_nil _ _)
        rw [if_neg (by simp), if_pos (by
          unfold descriptors at hroom
          rw [length_cons, infosPerWord_eq] at *
          omega)]
        have hpos : 0 < (e :: rest).length := succ_pos _
        generalize e :: rest = rest at *
        have htake : (rest.take infosPerWord).length = min rest.length infosPerWord := by
          rw [List.length_take, Nat.min_comm]
        have hsplit : rest.take infosPerWord ++ rest.drop infosPerWord = rest :=
          List.take_append_drop ..
        have hlen : (rest.take infosPerWord).length + (rest.drop infosPerWord).length =
            rest.length := by
          rw [← length_append, hsplit]
        have hstored : Stored (fieldAt p) (t + es.length) ((rest.take infosPerWord).map Prod.fst ++
            (rest.drop infosPerWord).map Prod.fst) := by rwa [← map_append, hsplit]
        have hnext :=
          ih (rest.drop infosPerWord).length (by rw [List.length_drop, infosPerWord_eq]; omega)
          (t + es.length) (x - es.length) (w + 1) (p.ref (w + 1)).index
          (rest.take infosPerWord) (rest.drop infosPerWord) (fun m e hm => ?_) ?_
            (fun hne => ?_) ?_ rfl
        · rw [hlen, hsplit, htake] at hnext
          rw [hnext, Option.none_or, map_map]
          congr 2
          funext j
          simp only [Function.comp]
          omega
        · have hlt := (List.getElem?_eq_some_iff.1 hm).1
          rw [field_word hword (by omega)]
          exact hstored.left m e.1 (by rw [List.getElem?_map, hm]; rfl)
        · have := hstored.right
          rwa [length_map] at this
        · have : infosPerWord < rest.length := by
            by_contra hc
            exact hne (List.drop_eq_nil_of_le (not_lt.1 hc))
          rw [htake, Nat.min_eq_right this.le, hword, mul_succ infosPerWord (w + 1)]
        · rw [Nat.add_assoc (t + es.length), hlen]
          omega

theorem valueIndex_at {p : PackedInfo ω} (n : ℕ) {t d : ℕ} {g : Entries ω} {aux : AuxGroups ω}
    (h : At p t d g aux) :
    let descriptor :=
  (p.ref (cursor p t d).descriptorIdx).index >>> (infoNumberBits * (cursor p t d).fieldIdx)
    let nInfos := descriptor &&& infoNumMask
    valueIndexLoop p n (cursor p t d).dataIdx (cursor p t d).descriptorIdx nInfos
        (min (infosPerWord - (cursor p t d).fieldIdx - 1) nInfos) (descriptor >>> infoNumberBits) =
      some ((g.findIdx? (isNumber n)).map fun j => p.len - d - j - 1) := by
  intro descriptor nInfos
  have hn : nInfos = g.length := field_cursor h
  have hlen := h.len
  have hfields : (fieldsOf g aux).length = 1 + g.length + (auxFields aux).length := by
    rw [fieldsOf, length_append, length_groupFields]
  have hdata : (dataOf g aux).length = g.length + (auxData aux).length := by
    rw [dataOf, length_append, length_map]
  have hfield : (cursor p t d).fieldIdx = t % infosPerWord := rfl
  rw [hn, hfield]
  set s := infosPerWord - t % infosPerWord - 1 with hs
  have htake : (g.take s).length = min s g.length := List.length_take
  have hsplit : g.take s ++ g.drop s = g := List.take_append_drop ..
  have hlen' : (g.take s).length + (g.drop s).length = g.length := by rw [← length_append, hsplit]
  have hstored :
      Stored (fieldAt p) (t + 1) ((g.take s).map Prod.fst ++ (g.drop s).map Prod.fst) := by
    rw [← map_append, hsplit]
    exact h.number
  have hloop := valueIndexLoop_spec (p :=
    p) n (t + 1) (p.len - d) (t / infosPerWord) (descriptor >>> infoNumberBits)
    (g.take s) (g.drop s) (fun m e hm => ?_) ?_ (fun hne => ?_) ?_
  · rw [hlen', hsplit, htake] at hloop
    exact hloop
  · have hlt := (List.getElem?_eq_some_iff.1 hm).1
    have hword :=
      field_word (p := p) (w := t / infosPerWord) (m := t % infosPerWord + 1 + m) rfl (by omega)
    rw [← Nat.add_assoc, ← Nat.add_assoc, div_add_mod,
      hstored.left m e.1 (by rw [List.getElem?_map, hm]; rfl)] at hword
    rw [← hword, show descriptor >>> infoNumberBits =
      (p.ref (t / infosPerWord)).index >>> (infoNumberBits * (t % infosPerWord + 1)) by
        rw [mul_succ, shiftRight_add]; rfl, field_shiftRight]
  · have := hstored.right
    rwa [length_map] at this
  · have hlt : s < g.length := by
      by_contra hc
      exact hne (List.drop_eq_nil_of_le (not_lt.1 hc))
    rw [htake, Nat.min_eq_left hlt.le]
    have := div_add_mod t infosPerWord
    have := Nat.mod_lt t (show 0 < infosPerWord by decide)
    rw [mul_succ]
    omega
  · have hmono := descriptors_mono (show t + 1 + (g.take s).length + (g.drop s).length ≤
      t + (fieldsOf g aux).length by omega)
    omega

theorem ref_valueIndex {p : PackedInfo ω} {t d j : ℕ} {g : Entries ω}
    {aux : AuxGroups ω} {e : ℕ × Obj ω}
    (h : At p t d g aux) (hj : g[j]? = some e) : p.ref (p.len - d - j - 1) = e.2 := by
  have := h.value j e.2 (by simp [hj])
  unfold datumAt at this
  rwa [show p.len - 1 - (d + j) = p.len - d - j - 1 by omega] at this

/-! ## What the groups say -/

section Groups
variable [DecidableEq ω]

/-- The group of an auxiliary key among the auxiliary groups. -/
def AuxGroups.group (aux : AuxGroups ω) (key : ω) : Entries ω :=
  ((aux.find? (·.1 = key)).map Prod.snd).getD []

def Infos.group (info : Infos ω) : AuxKey ω → Entries ω
  | none => info.primary
  | some key => AuxGroups.group info.aux key

/-- The value of an info number in a group. -/
def Entries.value (g : Entries ω) (n : ℕ) : Option (Obj ω) := (g.find? (isNumber n)).map Prod.snd

def Infos.lookup (info : Infos ω) (key : AuxKey ω) (n : ℕ) : Option (Obj ω) :=
  Entries.value (info.group key) n

end Groups

/-- Distinct info numbers, which are fields, as is their count, and that of an fdefn before the
others. -/
structure ValidGroup (g : Entries ω) : Prop where
  nodup : (g.map Prod.fst).Nodup
  fdefn_first : fdefnInfoNum ∉ g.tail.map Prod.fst
  number_lt : ∀ e ∈ g, e.1 < 2 ^ infoNumberBits
  length_lt : g.length < 2 ^ infoNumberBits

/-- The conventions of packed info. -/
structure Infos.Valid (setf : ω) (info : Infos ω) : Prop where
  primary : ValidGroup info.primary
  aux : ∀ a ∈ info.aux, ValidGroup a.2
  nonempty : ∀ a ∈ info.aux, a.2 ≠ []
  keys : (info.aux.map Prod.fst).Nodup
  setf_first : setf ∉ info.aux.tail.map Prod.fst

section Abstract
variable {setf key : ω} {g e : Entries ω} {pre post aux : AuxGroups ω} {info : Infos ω} {n : ℕ}

section
variable [DecidableEq ω]

theorem group_middle (hpre : ∀ a ∈ pre, a.1 ≠ key) :
    AuxGroups.group (pre ++ (key, e) :: post) key = e := by
  unfold AuxGroups.group
  rw [find?_append, find?_eq_none.2 (by simpa using hpre)]
  simp

theorem group_middle_of_ne {key' : ω} (h : key' ≠ key) :
    AuxGroups.group (pre ++ (key, e) :: post) key' = AuxGroups.group (pre ++ post) key' := by
  unfold AuxGroups.group
  rw [find?_append, find?_append, List.find?_cons_of_neg (by simpa using h.symm)]

theorem group_of_not_mem (h : ∀ a ∈ info.aux, a.1 ≠ key) : info.group (some key) = [] := by
  show AuxGroups.group info.aux key = []
  unfold AuxGroups.group
  rw [find?_eq_none.2 (by simpa using h)]
  rfl

theorem group_some (haux : info.aux = pre ++ (key, e) :: post) (hpre : ∀ a ∈ pre, a.1 ≠ key) :
    info.group (some key) = e := by
  show AuxGroups.group info.aux key = e
  rw [haux, group_middle hpre]

end

theorem aux_cases (hkeys : (aux.map Prod.fst).Nodup) (key : ω) :
    (∃ pre e post, aux = pre ++ (key, e) :: post ∧ (∀ a ∈ pre, a.1 ≠ key) ∧ ∀ a ∈ post, a.1 ≠ key) ∨
      ∀ a ∈ aux, a.1 ≠ key := by
  by_cases h : ∀ a ∈ aux, a.1 ≠ key
  · exact .inr h
  push Not at h
  obtain ⟨⟨k, e⟩, ha, rfl⟩ := h
  obtain ⟨pre, post, rfl⟩ := List.append_of_mem ha
  rw [map_append, map_cons, List.nodup_append] at hkeys
  obtain ⟨-, hpost, hdisj⟩ := hkeys
  rw [nodup_cons] at hpost
  refine .inl ⟨pre, e, post, rfl, fun a ha' hk => ?_, fun a ha' hk => ?_⟩
  · exact hdisj a.1 (mem_map_of_mem ha') k (mem_cons_self ..) hk
  · exact hpost.1 (hk ▸ mem_map_of_mem ha')

theorem fit_of_valid (h : info.Valid setf) : Fit info.primary info.aux := by
  have hgroup : ∀ g : Entries ω, ValidGroup g → ∀ x ∈ groupFields g, x < 2 ^ infoNumberBits := by
    intro g hg x hx
    rcases mem_cons.1 hx with rfl | hx
    · exact hg.length_lt
    · obtain ⟨e, he, rfl⟩ := mem_map.1 hx
      exact hg.number_lt e he
  intro x hx
  rcases mem_append.1 hx with hx | hx
  · exact hgroup _ h.primary x hx
  · obtain ⟨a, ha, hx⟩ := List.mem_flatMap.1 hx
    exact hgroup _ (h.aux a ha) x hx

theorem value_eq_none_iff : Entries.value g n = none ↔ n ∉ g.map Prod.fst := by
  unfold Entries.value
  rw [Option.map_eq_none_iff, find?_eq_none]
  simp only [isNumber, decide_eq_true_eq, mem_map, not_exists, not_and]

theorem value_insert (h : Entries.value (es ++ rest) n = none) (n' : ℕ) :
    Entries.value (es ++ (n, x) :: rest) n' =
      if n' = n then some x else Entries.value (es ++ rest) n' := by
  rw [value_eq_none_iff, map_append, mem_append, not_or] at h
  unfold Entries.value
  rw [find?_append, find?_append, find?_cons]
  by_cases hn : n' = n
  · have hnone : es.find? (isNumber n') = none := by
      rw [hn, find?_eq_none]
      intro e he hnum
      exact h.1 (mem_map.2 ⟨e, he, by simpa [isNumber] using hnum⟩)
    rw [if_pos hn, hnone]
    simp [isNumber, hn]
  · rw [if_neg hn]
    have : isNumber n' (n, x) = false := by simpa [isNumber] using Ne.symm hn
    rw [this]

theorem value_filter (g : Entries ω) (p : ℕ → Bool) (n : ℕ) :
    Entries.value (g.filter fun e => p e.1) n = if p n then Entries.value g n else none := by
  unfold Entries.value
  induction g with
  | nil => simp
  | cons e g ih =>
    rw [List.filter_cons, find?_cons]
    by_cases hn : e.1 = n
    · have hnum : isNumber n e = true := by simpa [isNumber] using hn
      rw [hnum, hn]
      by_cases hp : p n = true
      · rw [if_pos hp, if_pos hp, find?_cons, hnum]
      · rw [if_neg hp, ih, if_neg hp]
        rw [if_neg hp]
    · have hnum : isNumber n e = false := by simpa [isNumber] using hn
      rw [hnum]
      split_ifs with hp hp'
      · rw [find?_cons, hnum, ih, if_pos hp']
      · rw [find?_cons, hnum, ih, if_neg hp']
      · rw [ih, if_pos ‹_›]
      · rw [ih, if_neg ‹_›]

theorem findIdx_value (g : Entries ω) (n : ℕ) :
    (∃ j e, g.findIdx? (isNumber n) = some j ∧ g[j]? = some e ∧ Entries.value g n = some e.2) ∨
      g.findIdx? (isNumber n) = none ∧ Entries.value g n = none := by
  unfold Entries.value
  rw [List.find?_eq_bind_findIdx?_getElem?]
  cases hfind : g.findIdx? (isNumber n) with
  | none => exact .inr ⟨rfl, rfl⟩
  | some j =>
    have hlt : j < g.length := (List.findIdx?_eq_some_iff_getElem.1 hfind).1
    refine .inl ⟨j, g[j], rfl, List.getElem?_eq_getElem hlt, ?_⟩
    rw [bind_some, List.getElem?_eq_getElem hlt]
    rfl

theorem split_of_findIdx (h : g.findIdx? (isNumber n) = some j) :
    ∃ es x rest, g = es ++ (n, x) :: rest ∧ es.length = j := by
  obtain ⟨hlt, hnum, -⟩ := List.findIdx?_eq_some_iff_getElem.1 h
  refine ⟨g.take j, g[j].2, g.drop (j + 1), ?_, List.length_take_of_le hlt.le⟩
  have hn : g[j].1 = n := by simpa [isNumber] using hnum
  rw [show (n, g[j].2) = g[j] from Prod.ext hn.symm rfl]
  simp

end Abstract

/-! ## Lookup -/

section Lookup
variable [DecidableEq ω] {setf key : ω} {p : PackedInfo ω} {info : Infos ω}

omit [DecidableEq ω] in
theorem cursor_zero (p : PackedInfo ω) : cursor p 0 0 = ⟨p.len, 0, 0⟩ := by
  unfold cursor
  rw [Nat.sub_zero, Nat.zero_div, zero_mod]

/-- The early failure on SETF is right because SETF is the first auxiliary key. -/
theorem infoFindAuxKeyPacked_eq (hp : Packs p info) (hv : info.Valid setf) :
    infoFindAuxKeyPacked setf p key = findAuxKeyPackedLoop p key (cursor p 0 0) := by
  unfold Packs at hp
  have hsetf := hv.setf_first
  have hskip : skip ⟨p.len, 0, 0⟩ (packedInfoField p 0 0) =
      skip (cursor p 0 0) info.primary.length := by
    rw [← field_cursor hp, cursor_zero]
  rw [findAuxKeyPackedLoop, field_cursor hp]
  unfold infoFindAuxKeyPacked
  rw [hskip]
  generalize info.aux = aux at hp hsetf
  cases aux with
  | nil => rw [skip_nil hp]
  | cons a aux =>
    rw [skip_cons hp]
    dsimp only
    split_ifs with hfound hs
    · rfl
    · subst hs
      exact (findAuxKeyPackedLoop_none (fun a ha hk =>
        hsetf (mem_map.2 ⟨a, ha, hk⟩)) hp.next.2).symm
    · rfl

theorem infoFindAuxKeyPacked_some (hp : Packs p info) (hv : info.Valid setf) {e : Entries ω}
    {pre post : AuxGroups ω}
    (haux : info.aux = pre ++ (key, e) :: post) (hpre : ∀ a ∈ pre, a.1 ≠ key) :
    ∃ t, infoFindAuxKeyPacked setf p key =
      some (cursor p t ((dataOf info.primary pre).length + 1)) ∧
      At p t ((dataOf info.primary pre).length + 1) e post := by
  rw [infoFindAuxKeyPacked_eq hp hv]
  unfold Packs at hp
  rw [haux] at hp
  have hfind := findAuxKeyPackedLoop_some hpre hp
  rwa [Nat.zero_add] at hfind

theorem infoFindAuxKeyPacked_none (hp : Packs p info) (hv : info.Valid setf)
    (hkey : ∀ a ∈ info.aux, a.1 ≠ key) : infoFindAuxKeyPacked setf p key = none :=
  (infoFindAuxKeyPacked_eq hp hv).trans (findAuxKeyPackedLoop_none hkey hp)

theorem auxKeyAbsent_iff (hp : Packs p info) (hv : info.Valid setf) :
    auxKeyAbsent setf p (some key) = true ↔ ∀ a ∈ info.aux, a.1 ≠ key := by
  show (infoFindAuxKeyPacked setf p key).isNone = true ↔ _
  rcases aux_cases hv.keys key with ⟨pre, e, post, haux, hpre, -⟩ | h
  · obtain ⟨t, heq, -⟩ := infoFindAuxKeyPacked_some hp hv haux hpre
    rw [heq, haux]
    exact iff_of_false (by simp) fun h => h (key, e) (by simp) rfl
  · rw [infoFindAuxKeyPacked_none hp hv h]
    exact iff_of_true rfl h

/-- What an index has to be for the value of a pair. -/
def IsValueIndex (p : PackedInfo ω) (value : Option (Obj ω)) : Option ℕ → Prop
  | none => value = none
  | some i => i < p.len ∧ value = some (p.ref i)

omit [DecidableEq ω] in
theorem valueIndex_of_at {t d n : ℕ} {g : Entries ω} {aux : AuxGroups ω} (h : At p t d g aux) :
    ∃ r, some ((g.findIdx? (isNumber n)).map fun j => p.len - d - j - 1) = some r ∧
      IsValueIndex p (Entries.value g n) r := by
  refine ⟨_, rfl, ?_⟩
  rcases findIdx_value g n with ⟨j, e, hidx, hj, hval⟩ | ⟨hidx, hval⟩
  · have hlen := h.len
    have hd : (dataOf g aux).length = g.length + (auxData aux).length := by
      rw [dataOf, length_append, length_map]
    have hlt := (List.getElem?_eq_some_iff.1 hj).1
    rw [hidx, hval]
    refine ⟨?_, by rw [ref_valueIndex h hj]⟩
    show p.len - d - j - 1 < p.len
    omega
  · rw [hidx, hval]
    rfl

theorem packedInfoValueIndex_primary (hp : Packs p info) (n : ℕ) :
    packedInfoValueIndex setf p none n =
      some ((info.primary.findIdx? (isNumber n)).map fun j => p.len - 0 - j - 1) := by
  have hfind := valueIndex_at n hp
  rw [cursor_zero] at hfind
  exact hfind

theorem packedInfoValueIndex_aux (hp : Packs p info) (hv : info.Valid setf) {e : Entries ω}
    {pre post : AuxGroups ω}
    (haux : info.aux = pre ++ (key, e) :: post) (hpre : ∀ a ∈ pre, a.1 ≠ key) (n : ℕ) :
    packedInfoValueIndex setf p (some key) n =
      some ((e.findIdx? (isNumber n)).map fun j =>
        p.len - ((dataOf info.primary pre).length + 1) - j - 1) := by
  obtain ⟨t, heq, hat⟩ := infoFindAuxKeyPacked_some hp hv haux hpre
  unfold packedInfoValueIndex
  dsimp only
  rw [heq]
  exact valueIndex_at n hat

theorem packedInfoValueIndex_absent (hp : Packs p info) (hv : info.Valid setf)
    (hkey : ∀ a ∈ info.aux, a.1 ≠ key) (n : ℕ) :
    packedInfoValueIndex setf p (some key) n = some none := by
  unfold packedInfoValueIndex
  dsimp only
  rw [infoFindAuxKeyPacked_none hp hv hkey]

theorem packedInfoValueIndex_spec (hp : Packs p info) (hv : info.Valid setf)
    (key : AuxKey ω) (n : ℕ) :
    ∃ r, packedInfoValueIndex setf p key n = some r ∧ IsValueIndex p (info.lookup key n) r := by
  unfold Infos.lookup
  cases key with
  | none =>
    rw [packedInfoValueIndex_primary hp]
    exact valueIndex_of_at hp
  | some k =>
    rcases aux_cases hv.keys k with ⟨pre, e, post, haux, hpre, -⟩ | h
    · obtain ⟨t, -, hat⟩ := infoFindAuxKeyPacked_some hp hv haux hpre
      rw [packedInfoValueIndex_aux hp hv haux hpre, group_some haux hpre]
      exact valueIndex_of_at hat
    · rw [packedInfoValueIndex_absent hp hv h, group_of_not_mem h]
      exact ⟨none, rfl, rfl⟩

end Lookup

/-! ## Edits of vectors -/

section Edits
variable {v : SimpleVector ω} {xs ys : List (Obj ω)}

theorem insertAt_stored {a b : Obj ω} {oldSize n : ℕ} (hn : 2 ≤ n) (h : Stored v 0 (xs ++ ys))
    (hsize : oldSize = (xs ++ ys).length) :
    let new := insertAt oldSize n v xs.length a b
    Stored new 0 (xs ++ [a, b]) ∧ Stored new (xs.length + n) ys := by
  intro new
  have hx := h.left
  have hy := h.right
  rw [Nat.zero_add] at hy
  rw [length_append] at hsize
  have hnew : ∀ i, new i =
    update (update (if xs.length = oldSize then v else slideRight v xs.length n) xs.length a)
      (xs.length + 1) b i := fun i => rfl
  refine ⟨?_, ?_⟩
  · refine stored_append.2 ⟨hx.congr fun m hm => ?_,
      stored_cons.2 ⟨?_, stored_cons.2 ⟨?_, stored_nil⟩⟩⟩
    · rw [hnew, update_of_ne (by omega), update_of_ne (by omega)]
      split_ifs
      · rfl
      · unfold slideRight
        rw [if_neg (by omega)]
    · rw [hnew, Nat.zero_add, update_of_ne (by omega), update_self]
    · rw [hnew, Nat.zero_add, update_self]
  · refine hy.move fun m hm => ?_
    rw [hnew, update_of_ne (by omega), update_of_ne (by omega), if_neg (by omega)]
    unfold slideRight
    rw [if_pos (by omega)]
    congr 1
    omega

theorem stored_set (b : Obj ω) (h : Stored v 0 (xs ++ a :: ys)) :
    Stored (update v xs.length b) 0 (xs ++ b :: ys) := by
  have hy := (stored_cons.1 h.right).2
  rw [Nat.zero_add] at hy
  refine stored_append.2 ⟨h.left.update b (.inr (by omega)), stored_cons.2 ⟨?_, ?_⟩⟩
  · rw [Nat.zero_add, update_self]
  · rw [Nat.zero_add]
    exact hy.update b (.inl (by omega))

theorem slideLeft_stored {mid : List (Obj ω)} (size start1 start2 : ℕ)
    (h : Stored v 0 (xs ++ (mid ++ ys)))
    (h1 : start1 = xs.length) (h2 : start2 = xs.length + mid.length)
    (hsize : (xs ++ (mid ++ ys)).length ≤ size) :
    Stored (slideLeft v size start1 start2) 0 (xs ++ ys) := by
  rw [length_append, length_append] at hsize
  refine stored_append.2 ⟨h.left.congr fun m hm => ?_, h.right.right.move fun m hm => ?_⟩
  · unfold slideLeft
    rw [if_neg (by omega)]
  unfold slideLeft
  rw [if_pos (by omega)]
  congr 1
  omega

end Edits

/-! ## One group of a vector -/

theorem cellsOf_middle (g e : Entries ω) (key : ω) (pre post : AuxGroups ω) :
    cellsOf g (pre ++ (key, e) :: post) =
      cellsOf g pre ++ [.other key] ++ (groupCells e ++ auxCells post) := by
  simp [cellsOf, auxCells]

section Focus
variable [DecidableEq ω] {setf : ω}

theorem findAuxKeyUnpackedLoop_spec {key : ω} {v : SimpleVector ω} {g e : Entries ω}
    {pre post : AuxGroups ω} (h : Stored v i (cellsOf g (pre ++ (key, e) :: post)))
    (hlast : last = i + (cellsOf g (pre ++ (key, e) :: post)).length)
    (hpre : ∀ a ∈ pre, a.1 ≠ key) :
    findAuxKeyUnpackedLoop key v last i = some (i + (cellsOf g pre ++ [Obj.other key]).length) := by
  induction pre generalizing i g with
  | nil =>
    rw [nil_append, cellsOf_cons] at h hlast
    have hcount := (groupCells_spec h.left).1
    have hkey := (stored_cons.1 h.right).1
    have hpos : 0 < (cellsOf e post).length := by
      have := length_dataOf e post
      omega
    rw [length_groupCells] at hkey
    rw [length_append, length_cons, length_groupCells] at hlast
    unfold findAuxKeyUnpackedLoop
    dsimp only
    rw [hcount, show (Obj.fixnum (ω := ω) (1 + 2 * g.length)).index = 1 + 2 * g.length from rfl,
      if_neg (by omega),
      show i + (1 + (1 + 2 * g.length)) - 1 = i + (1 + 2 * g.length) by omega, if_pos hkey]
    simp only [cellsOf, auxCells, List.flatMap_nil, append_nil, length_append, length_groupCells,
      List.length_singleton, some_inj]
    omega
  | cons a pre ih =>
    obtain ⟨k', e'⟩ := a
    rw [cons_append, cellsOf_cons] at h hlast
    have hcount := (groupCells_spec h.left).1
    have hrest := stored_cons.1 h.right
    have hpos : 0 < (cellsOf e' (pre ++ (key, e) :: post)).length := by
      have := length_dataOf e' (pre ++ (key, e) :: post)
      omega
    rw [length_groupCells] at hrest
    rw [length_append, length_cons, length_groupCells] at hlast
    unfold findAuxKeyUnpackedLoop
    rw [hcount, show (Obj.fixnum (ω := ω) (1 + 2 * g.length)).index = 1 + 2 * g.length from rfl,
      if_neg (by omega),
      show i + (1 + (1 + 2 * g.length)) - 1 = i + (1 + 2 * g.length) by omega, hrest.1,
      if_neg (by simpa using hpre (k', e') (mem_cons_self ..)),
      show i + (1 + (1 + 2 * g.length)) = i + (1 + 2 * g.length) + 1 by omega,
      ih hrest.2 (by omega) fun a ha => hpre a (mem_cons_of_mem _ ha), cellsOf_cons]
    simp only [length_append, length_cons, length_groupCells, length_nil, some_inj]
    omega

/-- A group in its place: the cells and the data before it, the groups after it, and the groups with
another in its place. -/
structure Focus (setf : ω) (info : Infos ω) (key : AuxKey ω) (before dataBefore : List (Obj ω))
    (post : AuxGroups ω)
    (replace : Entries ω → Infos ω) : Prop where
  cells : ∀ e, (replace e).cells = before ++ (groupCells e ++ auxCells post)
  self : replace (info.group key) = info
  group : ∀ e, (replace e).group key = e
  group_of_ne : ∀ e key', key' ≠ key → (replace e).group key' = info.group key'
  valid : ∀ e, ValidGroup e → (key ≠ none → e ≠ []) → (replace e).Valid setf
  found : ∀ v, Stored v 0 info.cells → infoFindAuxKeyUnpacked key v info.cells.length =
    some before.length
  fields : ∀ e e', e.map Prod.fst = e'.map Prod.fst → (replace e).fields = (replace e').fields
  data : ∀ e, (replace e).data = dataBefore ++ (e.map Prod.snd ++ auxData post)
  index : ∀ p, Packs p info → ∀ n, packedInfoValueIndex setf p key n =
    some (((info.group key).findIdx? (isNumber n)).map fun j => p.len - dataBefore.length - j - 1)

omit [DecidableEq ω] in
theorem groupFields_congr {e e' : Entries ω} (h : e.map Prod.fst = e'.map Prod.fst) :
    groupFields e = groupFields e' := by
  have hlen := congrArg List.length h
  rw [length_map, length_map] at hlen
  unfold groupFields
  rw [h, hlen]

theorem focus_primary {info : Infos ω} (hv : info.Valid setf) :
    Focus setf info none [] [] info.aux fun e => ⟨e, info.aux⟩ where
  cells e := rfl
  self := rfl
  group e := rfl
  group_of_ne e key' hne := by
    cases key' with
    | none => exact absurd rfl hne
    | some k => rfl
  valid e he _ := ⟨he, hv.aux, hv.nonempty, hv.keys, hv.setf_first⟩
  found v _ := rfl
  fields e e' h := by
    show groupFields e ++ _ = groupFields e' ++ _
    rw [groupFields_congr h]
  data e := rfl
  index p hp n := packedInfoValueIndex_primary hp n

theorem focus_aux {info : Infos ω} {key : ω} {e : Entries ω} {pre post : AuxGroups ω}
    (hv : info.Valid setf)
    (haux : info.aux = pre ++ (key, e) :: post) (hpre : ∀ a ∈ pre, a.1 ≠ key) :
    Focus setf info (some key) (cellsOf info.primary pre ++ [.other key])
      (dataOf info.primary pre ++ [.other key]) post
      fun e => ⟨info.primary, pre ++ (key, e) :: post⟩ where
  cells e := cellsOf_middle ..
  self := by rw [group_some haux hpre, ← haux]
  group e := group_middle hpre
  group_of_ne e' key' hne := by
    cases key' with
    | none => rfl
    | some k =>
      have hk : k ≠ key := fun h => hne (by rw [h])
      show AuxGroups.group (pre ++ (key, e') :: post) k = AuxGroups.group info.aux k
      rw [haux, group_middle_of_ne hk, group_middle_of_ne hk]
  valid e' he hne := by
    have hmem : ∀ a, a ∈ pre ∨ a ∈ post → a ∈ info.aux := fun a ha => by
      rw [haux]
      rcases ha with ha | ha
      · exact List.mem_append_left _ ha
      · exact List.mem_append_right _ (mem_cons_of_mem _ ha)
    have hcases : ∀ a ∈ pre ++ (key, e') :: post, a = (key, e') ∨ a ∈ info.aux := fun a ha => by
      rcases mem_append.1 ha with ha | ha
      · exact .inr (hmem a (.inl ha))
      · rcases mem_cons.1 ha with ha | ha
        · exact .inl ha
        · exact .inr (hmem a (.inr ha))
    have hkeys : (pre ++ (key, e') :: post).map Prod.fst = info.aux.map Prod.fst := by
      rw [haux]
      simp
    refine ⟨hv.primary, fun a ha => ?_, fun a ha => ?_, ?_, ?_⟩
    · rcases hcases a ha with rfl | ha
      · exact he
      · exact hv.aux a ha
    · rcases hcases a ha with rfl | ha
      · exact hne (some_ne_none _)
      · exact hv.nonempty a ha
    · rw [hkeys]
      exact hv.keys
    · rw [map_tail, hkeys, ← map_tail]
      exact hv.setf_first
  found v hstored := by
    unfold Infos.cells at *
    rw [haux] at *
    have h := findAuxKeyUnpackedLoop_spec hstored (Nat.zero_add _).symm hpre
    rw [Nat.zero_add] at h
    exact h
  fields e e' h := by
    show fieldsOf info.primary (pre ++ (key, e) :: post) =
      fieldsOf info.primary (pre ++ (key, e') :: post)
    simp [fieldsOf, auxFields, groupFields_congr h]
  data e := by
    show dataOf info.primary (pre ++ (key, e) :: post) = _
    simp [dataOf, auxData]
  index p hp n := by
    rw [packedInfoValueIndex_aux hp hv haux hpre, length_append, List.length_singleton,
      group_some haux hpre]

theorem validGroup_group {info : Infos ω} (hv : info.Valid setf) (key : AuxKey ω) :
    ValidGroup (info.group key) := by
  cases key with
  | none => exact hv.primary
  | some k =>
    rcases aux_cases hv.keys k with ⟨pre, e, post, haux, hpre, -⟩ | h
    · rw [group_some haux hpre]
      exact hv.aux (k, e) (by rw [haux]; simp)
    · rw [group_of_not_mem h]
      exact ⟨by simp, by simp, by simp, Nat.two_pow_pos _⟩

theorem exists_focus {info : Infos ω} (hv : info.Valid setf) (key : AuxKey ω)
    (hkey : ∀ k, key = some k → ∃ a ∈ info.aux, a.1 = k) :
    ∃ before dataBefore post replace, Focus setf info key before dataBefore post replace := by
  cases key with
  | none => exact ⟨_, _, _, _, focus_primary hv⟩
  | some k =>
    rcases aux_cases hv.keys k with ⟨pre, e, post, haux, hpre, -⟩ | h
    · exact ⟨_, _, _, _, focus_aux hv haux hpre⟩
    · obtain ⟨a, ha, hk⟩ := hkey k rfl
      exact absurd hk (h a ha)

end Focus

/-! ## Insertion -/

/-- The cells of entries. -/
def entryCells (g : Entries ω) : List (Obj ω) := g.flatMap fun e => [.fixnum e.1, e.2]

theorem groupCells_eq (g : Entries ω) : groupCells g = .fixnum (1 + 2 * g.length) :: entryCells g :=
  rfl

@[simp] theorem length_entryCells (g : Entries ω) : (entryCells g).length = 2 * g.length := by
  simp [entryCells, Nat.mul_comm]

theorem entryCells_append (es rest : Entries ω) : entryCells (es ++ rest) = entryCells es ++
    entryCells rest :=
  List.flatMap_append ..

theorem entryCells_cons (e : ℕ × Obj ω) (g : Entries ω) :
    entryCells (e :: g) = .fixnum e.1 :: e.2 :: entryCells g := rfl

theorem insertEntry_stored {v : SimpleVector ω} {n : ℕ}
    (h : Stored v 0 (before ++ (groupCells (es ++ rest) ++ after)))
    (hsize : oldSize = (before ++ (groupCells (es ++ rest) ++ after)).length) :
    let new := insertAt oldSize 2 v (before.length + 1 + 2 * es.length) (.fixnum n) x
    (new before.length).index = 1 + 2 * (es ++ rest).length ∧
      Stored (update new before.length (.fixnum ((new before.length).index + 2))) 0
        (before ++ (groupCells (es ++ (n, x) :: rest) ++ after)) := by
  intro new
  have hcells : before ++ (groupCells (es ++ rest) ++ after) =
      before ++ .fixnum (1 + 2 * (es ++ rest).length) :: entryCells es ++
        (entryCells rest ++ after) := by
    rw [groupCells_eq, entryCells_append]
    simp
  rw [hcells] at h hsize
  obtain ⟨hfront, hback⟩ := insertAt_stored (a := .fixnum n) (b := x) le_rfl h hsize
  have hlen : (before ++ .fixnum (1 + 2 * (es ++ rest).length) :: entryCells es).length =
      before.length + 1 + 2 * es.length := by
    rw [length_append, length_cons, length_entryCells]
    omega
  rw [hlen] at hfront hback
  have hnew : Stored new 0 (before ++ .fixnum (1 + 2 * (es ++ rest).length) ::
      (entryCells es ++ [.fixnum n, x] ++ (entryCells rest ++ after))) := by
    have : Stored new 0 ((before ++ .fixnum (1 + 2 * (es ++ rest).length) :: entryCells es ++
      [.fixnum n, x]) ++
        (entryCells rest ++ after)) := by
      refine stored_append.2 ⟨hfront, ?_⟩
      rw [length_append, hlen, Nat.zero_add]
      exact hback
    simpa using this
  have hlength : new before.length = .fixnum (1 + 2 * (es ++ rest).length) := by
    have := hnew.right.head
    rwa [Nat.zero_add] at this
  rw [hlength]
  refine ⟨rfl, ?_⟩
  have hset := stored_set (.fixnum (1 + 2 * (es ++ rest).length + 2)) hnew
  have hgroup : groupCells (es ++ (n, x) :: rest) = .fixnum (1 + 2 * (es ++ rest).length + 2) ::
      (entryCells es ++ [.fixnum n, x] ++ entryCells rest) := by
    rw [groupCells_eq, entryCells_append, entryCells_cons]
    simp
    omega
  rw [hgroup]
  simpa [Obj.index] using hset

theorem ascendingPoint_spec {v : SimpleVector ω} {i n index : ℕ} {g : Entries ω}
    (h : Stored v i (entryCells g)) (hscan : ascendingPoint v n g.length i = some index) :
    ∃ m e, g[m]? = some e ∧ e.1 ≠ fdefnInfoNum ∧ index = i + 2 * m := by
  induction g generalizing i with
  | nil => cases hscan
  | cons e g ih =>
    rw [entryCells_cons, stored_cons, stored_cons] at h
    obtain ⟨h0, -, hrest⟩ := h
    rw [length_cons, ascendingPoint, h0] at hscan
    split_ifs at hscan with hc
    · rw [some_inj] at hscan
      exact ⟨0, e, rfl, hc.1, by omega⟩
    · obtain ⟨m, e', hm, hne, hindex⟩ := ih hrest hscan
      exact ⟨m + 1, e', hm, hne, by omega⟩

theorem insertionPoint_spec [DecidableEq ω] {v : SimpleVector ω} {i n : ℕ} {g : Entries ω}
    (key : AuxKey ω) (x : Obj ω)
    (h : Stored v i (groupCells g)) (hg : ValidGroup g) (hn : n ∉ g.map Prod.fst) :
    ∃ es rest, g = es ++ rest ∧ insertionPoint v key n i = i + 1 + 2 * es.length ∧
      fdefnInfoNum ∉ (es ++ (n, x) :: rest).tail.map Prod.fst := by
  rw [groupCells_eq, stored_cons] at h
  obtain ⟨hlength, hcells⟩ := h
  have hindex : (v i).index = 1 + 2 * g.length := by rw [hlength]; rfl
  unfold insertionPoint
  by_cases hfd : n = fdefnInfoNum
  · rw [if_pos hfd]
    exact ⟨[], g, rfl, rfl, by rw [hfd] at hn; exact hn⟩
  rw [if_neg hfd, hindex, show (1 + 2 * g.length) / 2 = g.length by omega]
  cases hscan : (if key = none then ascendingPoint v n g.length (i + 1) else none) with
  | none =>
    refine ⟨g, [], (append_nil g).symm, by dsimp only; omega, ?_⟩
    cases g with
    | nil => simp
    | cons e g =>
      rw [cons_append, tail_cons, map_append, mem_append, not_or]
      exact ⟨hg.fdefn_first, by simpa using Ne.symm hfd⟩
  | some index =>
    have hasc : ascendingPoint v n g.length (i + 1) = some index := by
      split_ifs at hscan
      exact hscan
    obtain ⟨m, e, hm, hne, rfl⟩ := ascendingPoint_spec hcells hasc
    have hlt := (List.getElem?_eq_some_iff.1 hm).1
    refine ⟨g.take m, g.drop m, (List.take_append_drop m g).symm, ?_, ?_⟩
    · dsimp only
      rw [List.length_take_of_le hlt.le]
    have hfirst := hg.fdefn_first
    cases m with
    | zero =>
      rw [List.take_zero, List.drop_zero, nil_append, tail_cons]
      cases g with
      | nil => simp
      | cons e' g =>
        rw [List.getElem?_cons_zero, some_inj] at hm
        rw [map_cons, mem_cons, not_or, hm]
        exact ⟨Ne.symm hne, hfirst⟩
    | succ m =>
      cases g with
      | nil => cases hm
      | cons e' g =>
        rw [tail_cons] at hfirst
        rw [List.take_succ_cons, List.drop_succ_cons, cons_append, tail_cons, map_append,
          map_cons, mem_append, mem_cons, not_or, not_or]
        exact ⟨fun hmem => hfirst (map_subset _ (List.take_subset m g) hmem), Ne.symm hfd,
          fun hmem => hfirst (map_subset _ (List.drop_subset m g) hmem)⟩

theorem validGroup_insert {n : ℕ} (h : ValidGroup (es ++ rest))
    (hn : n ∉ (es ++ rest).map Prod.fst) (hlt : n < 2 ^ infoNumberBits)
    (hlen : (es ++ rest).length + 1 < 2 ^ infoNumberBits)
    (hfirst : fdefnInfoNum ∉ (es ++ (n, x) :: rest).tail.map Prod.fst) :
    ValidGroup (es ++ (n, x) :: rest) := by
  have hperm : List.Perm (es ++ (n, x) :: rest) ((n, x) :: (es ++ rest)) := perm_middle
  refine ⟨?_, hfirst, fun e he => ?_, ?_⟩
  · rw [(hperm.map Prod.fst).nodup_iff, map_cons, nodup_cons]
    exact ⟨hn, h.nodup⟩
  · rcases mem_cons.1 (hperm.mem_iff.1 he) with rfl | he
    · exact hlt
    · exact h.number_lt e he
  · rw [hperm.length_eq]
    exact hlen

section Insertion
variable [DecidableEq ω] {setf : ω} {p : PackedInfo ω} {info : Infos ω}

omit [DecidableEq ω] in
theorem insertKey_stored {v : SimpleVector ω} (xs ys : List (Obj ω)) (key : ω) (n : ℕ) (x : Obj ω)
    (h : Stored v 0 (xs ++ ys)) (hsize : oldSize = (xs ++ ys).length) :
    Stored (update (update (insertAt oldSize 4 v xs.length (.other key) (.fixnum 3))
      (xs.length + 2) (.fixnum n))
      (xs.length + 3) x) 0 (xs ++ (.other key :: groupCells [(n, x)] ++ ys)) := by
  obtain ⟨hfront, hback⟩ := insertAt_stored (a := .other key) (b := .fixnum 3) (n :=
    4) (by decide) h hsize
  generalize insertAt oldSize 4 v xs.length (.other key) (.fixnum 3) = new at hfront hback ⊢
  have hcells : xs ++ (.other key :: groupCells [(n, x)] ++ ys) =
      xs ++ [.other key, .fixnum 3] ++ ([.fixnum n, x] ++ ys) := by
    simp [groupCells]
  have hlen : (xs ++ [Obj.other key, .fixnum 3]).length = xs.length + 2 := by simp
  rw [hcells]
  refine stored_append.2 ⟨(hfront.update _ (.inr (by omega))).update _ (.inr (by omega)), ?_⟩
  rw [hlen, Nat.zero_add]
  refine stored_append.2 ⟨stored_cons.2 ⟨?_, stored_cons.2 ⟨?_, stored_nil⟩⟩, ?_⟩
  · rw [update_of_ne (by omega), update_self]
  · rw [update_self]
  · exact (hback.update _ (.inl (by omega))).update _ (.inl (by simp))

omit [DecidableEq ω] in
theorem validGroup_singleton {n : ℕ} (hn : n < 2 ^ infoNumberBits) : ValidGroup [(n, x)] :=
  ⟨by simp, by simp, by simpa using hn, by simp [infoNumberBits]⟩

theorem insertKey_at (hv : info.Valid setf) {pre post : AuxGroups ω}
    (haux : info.aux = pre ++ post) {key : ω}
    (hkey : ∀ a ∈ info.aux, a.1 ≠ key) {n : ℕ} (hn : n < 2 ^ infoNumberBits) (x : Obj ω)
    (hfirst : setf ∉ (pre ++ (key, [(n, x)]) :: post).tail.map Prod.fst) {v : SimpleVector ω}
    (hcells : Stored v 0 info.cells)
    {point : ℕ} (hpoint : point = (cellsOf info.primary pre).length) :
    ∃ p' info', packifyInfos
      (update (update (insertAt info.cells.length 4 v point (.other key) (.fixnum 3)) (point + 2)
        (.fixnum n)) (point + 3) x) (info.cells.length + 4) = some p' ∧ Packs p' info' ∧
        info'.Valid setf ∧
      info'.group (some key) = [(n, x)] ∧ ∀ key', key' ≠ some key →
        info'.group key' = info.group key' := by
  have hperm : (pre ++ (key, [(n, x)]) :: post).Perm ((key, [(n, x)]) :: info.aux) := by
    rw [haux]
    exact perm_middle
  have hvalid : (⟨info.primary, pre ++ (key, [(n, x)]) :: post⟩ : Infos ω).Valid setf := by
    refine ⟨hv.primary, fun a ha => ?_, fun a ha => ?_, ?_, hfirst⟩
    · rcases mem_cons.1 (hperm.mem_iff.1 ha) with rfl | ha
      · exact validGroup_singleton hn
      · exact hv.aux a ha
    · rcases mem_cons.1 (hperm.mem_iff.1 ha) with rfl | ha
      · exact List.cons_ne_nil _ _
      · exact hv.nonempty a ha
    rw [(hperm.map Prod.fst).nodup_iff, map_cons, nodup_cons]
    refine ⟨fun hmem => ?_, hv.keys⟩
    obtain ⟨a, ha, hk⟩ := mem_map.1 hmem
    exact hkey a ha hk
  have hsplit : info.cells = cellsOf info.primary pre ++ auxCells post := by
    simp [Infos.cells, cellsOf, auxCells, haux]
  have heq : cellsOf info.primary pre ++ (.other key :: groupCells [(n, x)] ++ auxCells post) =
      (⟨info.primary, pre ++ (key, [(n, x)]) :: post⟩ : Infos ω).cells := by
    simp [Infos.cells, cellsOf, auxCells]
  have hlen : (⟨info.primary, pre ++ (key, [(n, x)]) :: post⟩ : Infos ω).cells.length =
      info.cells.length + 4 := by
    rw [← heq, hsplit]
    simp
    omega
  rw [hsplit] at hcells
  have hstored := insertKey_stored _ _ key n x hcells rfl
  rw [heq, ← hsplit, ← hpoint] at hstored
  obtain ⟨p', hpack, hpacks⟩ := packifyInfos_spec hstored (fit_of_valid hvalid)
  rw [hlen] at hpack
  refine ⟨p', _, hpack, hpacks, hvalid, group_middle fun a ha => hkey a ?_, fun key' hne => ?_⟩
  · rw [haux]
    exact List.mem_append_left _ ha
  cases key' with
  | none => rfl
  | some k =>
    show AuxGroups.group _ k = AuxGroups.group info.aux k
    rw [haux, group_middle_of_ne fun h => hne (by rw [h])]

theorem insertKey_spec (hp : Packs p info) (hv : info.Valid setf) {key : ω}
    (hkey : ∀ a ∈ info.aux, a.1 ≠ key) {n : ℕ} (hn : n < 2 ^ infoNumberBits) (x : Obj ω) :
    ∃ p' info', packedInfoInsert setf p (some key) n x = some p' ∧ Packs p' info' ∧
      info'.Valid setf ∧
      (info'.group (some key) = [(n, x)]) ∧ ∀ key', key' ≠ some key →
        info'.group key' = info.group key' := by
  have hcells := unpackifyInfos_spec hp fun _ => .fixnum 0
  unfold packedInfoInsert
  rw [(auxKeyAbsent_iff hp hv).2 hkey, show (if true = true then 4 else 2) = 4 from rfl, if_pos rfl,
    computeUnpackifiedInfoSize_spec hp]
  generalize unpackifyInfos p (fun _ => .fixnum 0) = v at hcells ⊢
  by_cases hs : key = setf
  · -- SETF goes after the primary group.
    have hindex : (v 0).index = (cellsOf info.primary []).length := by
      rw [(groupCells_spec hcells.left).1]
      simp [cellsOf, auxCells, Obj.index]
    rw [if_pos (by rw [hs])]
    refine insertKey_at hv (nil_append _).symm hkey hn x (fun hmem => ?_) hcells hindex
    obtain ⟨a, ha, hk⟩ := mem_map.1 hmem
    exact hkey a ha (hk.trans hs.symm)
  · rw [if_neg (by simpa using hs)]
    refine insertKey_at hv (append_nil _).symm hkey hn x ?_ hcells rfl
    have hfirst := hv.setf_first
    cases haux : info.aux with
    | nil => simp
    | cons a aux =>
      rw [haux] at hfirst
      rw [cons_append, tail_cons, map_append, mem_append, not_or]
      exact ⟨hfirst, by simpa using Ne.symm hs⟩

theorem insertEntry_spec (hp : Packs p info) (hv : info.Valid setf) {key : AuxKey ω}
    (hkey : ∀ k, key = some k → ∃ a ∈ info.aux, a.1 = k) {n : ℕ} (hn : n < 2 ^ infoNumberBits)
    (hnew : n ∉ (info.group key).map Prod.fst) (x : Obj ω) :
    if (info.group key).length + 1 < 2 ^ infoNumberBits then
      ∃ p' info' es rest, packedInfoInsert setf p key n x = some p' ∧ Packs p' info' ∧
        info'.Valid setf ∧ info.group key = es ++ rest ∧ info'.group key = es ++ (n, x) :: rest ∧
        ∀ key', key' ≠ key → info'.group key' = info.group key'
    else packedInfoInsert setf p key n x = none := by
  obtain ⟨before, _, post, replace, hfocus⟩ := exists_focus hv key hkey
  have hcells := unpackifyInfos_spec hp fun _ => .fixnum 0
  have hsize := computeUnpackifiedInfoSize_spec hp
  have hpresent : auxKeyAbsent setf p key = false := by
    cases key with
    | none => rfl
    | some k =>
      rw [← Bool.not_eq_true, auxKeyAbsent_iff hp hv]
      obtain ⟨a, ha, hk⟩ := hkey k rfl
      exact fun h => h a ha hk
  have hgroup := validGroup_group hv key
  unfold packedInfoInsert
  have h24 : ¬(2 : ℕ) = 4 := by decide
  rw [hpresent, show (if false = true then 4 else 2) = 2 from rfl, if_neg h24, hsize]
  generalize unpackifyInfos p (fun _ => .fixnum 0) = v at hcells ⊢
  rw [hfocus.found v hcells]
  have hself := hfocus.cells (info.group key)
  rw [hfocus.self] at hself
  have hstored := hcells
  rw [hself] at hstored
  have hentry := hstored.right.left
  rw [Nat.zero_add] at hentry
  obtain ⟨es, rest, hsplit, hpoint, hfirst⟩ := insertionPoint_spec key x hentry hgroup hnew
  simp only [bind_eq_bind, bind_some]
  rw [hpoint]
  rw [hsplit] at hstored hself
  obtain ⟨hlength, hnewcells⟩ :=
    insertEntry_stored (n := n) (x := x) hstored (show info.cells.length = _ by rw [hself])
  rw [hlength] at hnewcells ⊢
  rw [hsplit, show (1 + 2 * (es ++ rest).length + 2) / 2 = (es ++ rest).length + 1 by omega]
  split_ifs with hroom
  · have hne : key ≠ none → es ++ (n, x) :: rest ≠ [] := fun _ => by simp
    rw [hsplit] at hgroup hnew
    have hvalid := hfocus.valid _ (validGroup_insert hgroup hnew hn hroom hfirst) hne
    rw [← hfocus.cells] at hnewcells
    obtain ⟨p', hpack, hpacks⟩ := packifyInfos_spec hnewcells (fit_of_valid hvalid)
    have hlen : (replace (es ++ (n, x) :: rest)).cells.length = info.cells.length + 2 := by
      rw [hfocus.cells, hself]
      simp
      omega
    rw [hlen] at hpack
    exact ⟨p', _, es, rest, hpack, hpacks, hvalid, rfl, hfocus.group _, hfocus.group_of_ne _⟩
  · rfl

end Insertion

/-! ## Removal -/

section Remove

variable {v : SimpleVector ω} {g : Entries ω}

theorem probe_spec (n : ℕ) (h : Stored v i (entryCells g)) :
    probe v n g.length i = (g.findIdx? (isNumber n)).map fun j => i + 2 * j := by
  induction g generalizing i with
  | nil => rfl
  | cons e g ih =>
    rw [entryCells_cons, stored_cons, stored_cons] at h
    obtain ⟨h0, -, hrest⟩ := h
    rw [length_cons, probe, h0, List.findIdx?_cons, ih hrest]
    by_cases hn : e.1 = n
    · rw [if_pos (by simpa [Obj.index] using hn), if_pos (by simpa [isNumber] using hn)]
      rfl
    rw [if_neg (by simpa [Obj.index] using hn), if_neg (by simpa [isNumber] using hn), map_map]
    congr 1
    funext j
    simp only [Function.comp]
    omega

theorem removeEntry_stored {e : ℕ × Obj ω}
    (h : Stored v 0 (before ++ (groupCells (es ++ e :: rest) ++ after)))
    (hsize : (before ++ (groupCells (es ++ e :: rest) ++ after)).length ≤ size) :
    let new := slideLeft v size (before.length + 1 + 2 * es.length) (before.length + 1 + 2 * es.length + 2)
    (new before.length).index - 2 = 1 + 2 * (es ++ rest).length ∧
      Stored (update new before.length (.fixnum ((new before.length).index - 2))) 0
        (before ++ (groupCells (es ++ rest) ++ after)) := by
  intro new
  have hcells : before ++ (groupCells (es ++ e :: rest) ++ after) =
      before ++ .fixnum (1 + 2 * (es ++ rest).length + 2) :: entryCells es ++
        ([.fixnum e.1, e.2] ++ (entryCells rest ++ after)) := by
    rw [groupCells_eq, entryCells_append, entryCells_cons]
    simp
    omega
  have hlen : (before ++ .fixnum (1 + 2 * (es ++ rest).length + 2) :: entryCells es).length =
      before.length + 1 + 2 * es.length := by
    rw [length_append, length_cons, length_entryCells]
    omega
  rw [hcells] at h hsize
  have hnew : Stored new 0 (before ++ .fixnum (1 + 2 * (es ++ rest).length + 2) ::
      (entryCells es ++ (entryCells rest ++ after))) := by
    have := slideLeft_stored size (before.length + 1 + 2 * es.length) (before.length + 1 + 2 * es.length + 2) h hlen.symm (by rw [hlen]; rfl) hsize
    simpa using this
  have hlength : new before.length = .fixnum (1 + 2 * (es ++ rest).length + 2) := by
    have := hnew.right.head
    rwa [Nat.zero_add] at this
  rw [hlength]
  refine ⟨rfl, ?_⟩
  have hset := stored_set (.fixnum (1 + 2 * (es ++ rest).length)) hnew
  rw [groupCells_eq, entryCells_append]
  simpa [Obj.index] using hset

/-- The entries that stay. -/
def keep (g : Entries ω) (ns : List ℕ) : Entries ω := g.filter fun e => decide (e.1 ∉ ns)

theorem keep_cons_of_not_mem {n : ℕ} (ns : List ℕ) (hn : n ∉ g.map Prod.fst) :
    keep g (n :: ns) = keep g ns := by
  refine List.filter_congr fun e he => ?_
  have hne : e.1 ≠ n := fun h => hn (h ▸ mem_map_of_mem he)
  simp [hne]

theorem keep_middle {n : ℕ} (ns : List ℕ) (h : ((es ++ (n, x) :: rest).map Prod.fst).Nodup) :
    keep (es ++ (n, x) :: rest) (n :: ns) = keep (es ++ rest) ns := by
  have hperm : List.Perm (es ++ (n, x) :: rest) ((n, x) :: (es ++ rest)) := perm_middle
  rw [(hperm.map Prod.fst).nodup_iff, map_cons, nodup_cons] at h
  rw [← keep_cons_of_not_mem ns h.1]
  unfold keep
  rw [List.filter_append, List.filter_append, List.filter_cons_of_neg (by simp)]

theorem removeLoop_spec
    (ns : List ℕ) (h : Stored v 0 (before ++ (groupCells g ++ after)))
    (hlast : last = (before ++ (groupCells g ++ after)).length) (hsize : last ≤ size)
    (hnodup : (g.map Prod.fst).Nodup) (hne : before ≠ [] → g ≠ []) :
    let r := removeLoop size before.length ns v last
    let cells := if before ≠ [] ∧ keep g ns = [] then before.dropLast ++ after
      else before ++ (groupCells (keep g ns) ++ after)
    Stored r.1 0 cells ∧ r.2 = cells.length := by
  induction ns generalizing v g last with
  | nil =>
    have hkeep : keep g [] = g := by unfold keep; simp
    intro r cells
    have hcells : cells = before ++ (groupCells g ++ after) := by
      show (if before ≠ [] ∧ keep g [] = [] then _ else _) = _
      rw [hkeep, if_neg fun hc => hne hc.1 hc.2]
    rw [hcells]
    exact ⟨h, hlast⟩
  | cons n ns ih =>
    have hcount : v before.length = .fixnum (1 + 2 * g.length) := by
      have := h.right.left.head
      rwa [Nat.zero_add] at this
    have hentries : Stored v (before.length + 1) (entryCells g) := by
      have := (stored_cons.1 h.right.left).2
      rwa [Nat.zero_add] at this
    have hprobe : probe v n ((v before.length).index / 2) (before.length + 1) =
        (g.findIdx? (isNumber n)).map fun j => before.length + 1 + 2 * j := by
      rw [hcount, show (Obj.fixnum (ω := ω) (1 + 2 * g.length)).index / 2 = g.length by
        show (1 + 2 * g.length) / 2 = g.length
        omega]
      exact probe_spec n hentries
    rw [removeLoop, hprobe]
    cases hfind : g.findIdx? (isNumber n) with
    | none =>
      have hnot : n ∉ g.map Prod.fst := by
        rw [List.findIdx?_eq_none_iff] at hfind
        intro hmem
        obtain ⟨e, he, rfl⟩ := mem_map.1 hmem
        have := hfind e he
        simp [isNumber] at this
      rw [keep_cons_of_not_mem ns hnot]
      exact ih h hlast hsize hnodup hne
    | some j =>
      obtain ⟨es, x, rest, rfl, rfl⟩ := split_of_findIdx hfind
      rw [map_some, keep_middle ns hnodup]
      dsimp only
      have hlen : last = before.length + (1 + 2 * (es.length + rest.length + 1)) +
          after.length := by
        rw [hlast]
        simp
        omega
      by_cases hc : before.length = 0 ∨ (v before.length).index > 3
      · rw [if_pos hc]
        obtain ⟨hlength, hstored⟩ := removeEntry_stored h (hlast ▸ hsize)
        rw [hlength] at hstored ⊢
        have hnext : last - 2 = (before ++ (groupCells (es ++ rest) ++ after)).length := by
          rw [hlen]
          simp
          omega
        by_cases hempty : 1 + 2 * (es ++ rest).length = 1
        · have hnil : es ++ rest = [] := length_eq_zero_iff.1 (by omega)
          have hb : before = [] := by
            rcases hc with hb | hc
            · exact length_eq_zero_iff.1 hb
            rw [hcount, show (Obj.fixnum (ω := ω) (1 + 2 * (es ++ (n, x) :: rest).length)).index =
              1 + 2 * (es ++ (n, x) :: rest).length from rfl] at hc
            simp only [length_append, length_cons] at hc hempty
            omega
          rw [if_pos hempty]
          have hkeep : keep (es ++ rest) ns = es ++ rest := by rw [hnil]; rfl
          rw [hkeep, if_neg fun hc => hc.1 hb]
          exact ⟨hstored, hnext⟩
        · rw [if_neg hempty]
          refine ih hstored hnext (by omega) ?_ fun _ hnil => hempty (by rw [hnil]; rfl)
          rw [map_append, map_cons] at hnodup
          rw [map_append]
          exact hnodup.sublist (List.Sublist.append_left (List.sublist_cons_self ..) _)
      · -- The sole entry of an auxiliary key: the key, the length and the entry are taken out.
        rw [if_neg hc]
        rw [not_or, hcount] at hc
        have hone : es = [] ∧ rest = [] := by
          have h3 : ¬1 + 2 * (es ++ (n, x) :: rest).length > 3 := hc.2
          simp only [length_append, length_cons] at h3
          exact ⟨length_eq_zero_iff.1 (by omega), length_eq_zero_iff.1 (by omega)⟩
        obtain ⟨rfl, rfl⟩ := hone
        have hb : before ≠ [] := fun hb => hc.1 (by rw [hb]; rfl)
        rw [if_pos ⟨hb, rfl⟩]
        have hsplit : before.dropLast ++ [before.getLast hb] = before :=
          List.dropLast_append_getLast hb
        have hdrop : before.length = before.dropLast.length + 1 := by
          rw [List.length_dropLast]
          omega
        have hstored :
            Stored v 0 (before.dropLast ++
              ([before.getLast hb, .fixnum 3, .fixnum n, x] ++ after)) := by
          rw [← hsplit] at h
          simpa [groupCells] using h
        have hslide :=
          slideLeft_stored size (before.length + 1 + 2 * 0 - 2)
            (before.length + 1 + 2 * 0 + 2) hstored
          (by omega) (by simp only [length_cons, length_nil]; omega) (by
            simp only [length_append, length_cons, length_nil] at hlen ⊢
            omega)
        refine ⟨hslide, ?_⟩
        rw [length_append]
        simp only [length_nil] at hlen
        omega

end Remove

section Removal
variable [DecidableEq ω] {setf : ω} {p : PackedInfo ω} {info : Infos ω}

omit [DecidableEq ω] in
theorem validGroup_keep {g : Entries ω} (ns : List ℕ) (h : ValidGroup g) :
    ValidGroup (keep g ns) := by
  refine ⟨h.nodup.sublist (List.filter_sublist.map _), fun hmem => h.fdefn_first ?_,
    fun e he => h.number_lt e (List.mem_of_mem_filter he),
    (List.length_filter_le ..).trans_lt h.length_lt⟩
  cases g with
  | nil => exact hmem
  | cons e g =>
    unfold keep at hmem
    rw [List.filter_cons] at hmem
    split_ifs at hmem
    · exact map_subset _ List.filter_sublist.subset hmem
    · exact map_subset _ ((List.tail_sublist _).trans List.filter_sublist).subset hmem

omit [DecidableEq ω] in
theorem value_keep (g : Entries ω) (ns : List ℕ) (n : ℕ) :
    Entries.value (keep g ns) n = if n ∈ ns then none else Entries.value g n := by
  have h := value_filter g (fun n => decide (n ∉ ns)) n
  unfold keep
  rw [h]
  by_cases hn : n ∈ ns
  · rw [if_pos hn, if_neg (by simpa using hn)]
  · rw [if_neg hn, if_pos (by simpa using hn)]

omit [DecidableEq ω] in
theorem keep_eq_self_iff (g : Entries ω) (ns : List ℕ) :
    (keep g ns).length = g.length ↔ ∀ n ∈ ns, Entries.value g n = none := by
  unfold keep
  rw [List.length_filter_eq_length_iff]
  constructor
  · intro h n hn
    rw [value_eq_none_iff]
    intro hmem
    obtain ⟨e, he, rfl⟩ := mem_map.1 hmem
    have := h e he
    simp only [decide_eq_true_eq] at this
    exact this hn
  · intro h e he
    rw [decide_eq_true_eq]
    intro hn
    have := h e.1 hn
    rw [value_eq_none_iff] at this
    exact this (mem_map_of_mem he)

/-- What a removal has to do. -/
def IsRemoval (setf : ω) (info : Infos ω) (key : AuxKey ω) (ns : List ℕ) :
    Option (PackedInfo ω) → Prop
  | none => ∀ n ∈ ns, info.lookup key n = none
  | some p' => (∃ n ∈ ns, info.lookup key n ≠ none) ∧ ∃ info', Packs p' info' ∧ info'.Valid setf ∧
      ∀ key' n, info'.lookup key' n = if key' = key ∧ n ∈ ns then none else info.lookup key' n

omit [DecidableEq ω] in
theorem packs_nil : Packs (nilPackedInfos : PackedInfo ω) ⟨[], []⟩ := by
  refine ⟨fun m x hm => ?_, fun m x hm => by simp [dataOf, auxData] at hm,
    (by decide : 1 = descriptors 1 + 0)⟩
  have hlt := (List.getElem?_eq_some_iff.1 hm).1
  have hlen : (fieldsOf ([] : Entries ω) []).length = 1 := rfl
  obtain rfl : m = 0 := by
    have : m < (fieldsOf ([] : Entries ω) []).length := hlt
    omega
  have hx : x = 0 := by
    have : (fieldsOf ([] : Entries ω) [])[0]? = some 0 := rfl
    exact (some_inj.1 (this.symm.trans hm)).symm
  rw [hx]
  show 0 >>> _ &&& infoNumMask = 0
  rw [zero_shiftRight, zero_and]

omit [DecidableEq ω] in
theorem valid_nil (setf : ω) : (⟨[], []⟩ : Infos ω).Valid setf := by
  refine ⟨⟨by simp, by simp, by simp, Nat.two_pow_pos _⟩, by simp, by simp, by simp, by simp⟩

omit [DecidableEq ω] in
/-- Only groups without entries are unpacked into a sole cell. -/
theorem eq_nil_of_length_cells (h : info.cells.length = 1) : info = ⟨[], []⟩ := by
  obtain ⟨g, aux⟩ := info
  have h' : (groupCells g ++ auxCells aux).length = 1 := h
  rw [length_append, length_groupCells] at h'
  have hg : g = [] := length_eq_zero_iff.1 (by omega)
  cases aux with
  | nil => rw [hg]
  | cons a aux =>
    simp [auxCells] at h'
    omega

omit [DecidableEq ω] in
theorem repack_spec {v : SimpleVector ω} (h : Stored v 0 info'.cells) (hv : info'.Valid setf) :
    ∃ p', (if info'.cells.length = 1 then some (some nilPackedInfos)
      else some <$> packifyInfos v info'.cells.length) = some (some p') ∧ Packs p' info' := by
  split_ifs with h1
  · rw [eq_nil_of_length_cells h1]
    exact ⟨_, rfl, packs_nil⟩
  · obtain ⟨p', hpack, hpacks⟩ := packifyInfos_spec h (fit_of_valid hv)
    rw [hpack]
    exact ⟨p', rfl, hpacks⟩

theorem removal_of_cells {key : AuxKey ω} {ns : List ℕ} {v : SimpleVector ω}
    (h : Stored v 0 info'.cells) (hv : info'.Valid setf)
    (hle : info'.cells.length ≤ info.cells.length)
    (heq : info'.cells.length = info.cells.length ↔ ∀ n ∈ ns, info.lookup key n = none)
    (hlookup : ∀ key' n,
      info'.lookup key' n = if key' = key ∧ n ∈ ns then none else info.lookup key' n) :
    ∃ r, (if info.cells.length - info'.cells.length = 0 then some none
      else if info'.cells.length = 1 then some (some nilPackedInfos)
      else some <$> packifyInfos v info'.cells.length) = some r ∧ IsRemoval setf info key ns r := by
  by_cases hsame : info.cells.length - info'.cells.length = 0
  · rw [if_pos hsame]
    exact ⟨none, rfl, heq.1 (by omega)⟩
  obtain ⟨p', hpack, hpacks⟩ := repack_spec h hv
  rw [if_neg hsame]
  refine ⟨some p', hpack, ?_, info', hpacks, hv, hlookup⟩
  by_contra hc
  push Not at hc
  exact hsame (by rw [heq.2 hc, Nat.sub_self])

theorem lookup_replace {key : AuxKey ω} {before dataBefore : List (Obj ω)} {post : AuxGroups ω}
    {replace : Entries ω → Infos ω} (hfocus : Focus setf info key before dataBefore post replace)
    (ns : List ℕ) (key' : AuxKey ω) (n : ℕ) : (replace (keep (info.group key) ns)).lookup key' n =
      if key' = key ∧ n ∈ ns then none else info.lookup key' n := by
  unfold Infos.lookup
  by_cases hk : key' = key
  · rw [hk, hfocus.group, value_keep]
    simp
  · rw [hfocus.group_of_ne _ _ hk, if_neg fun h => hk h.1]

omit [DecidableEq ω] in
theorem valid_remove {key : ω} {e : Entries ω} {pre post : AuxGroups ω} (hv : info.Valid setf)
    (haux : info.aux = pre ++ (key, e) :: post) :
    (⟨info.primary, pre ++ post⟩ : Infos ω).Valid setf := by
  have hsub : List.Sublist (pre ++ post) info.aux := by
    rw [haux]
    exact List.Sublist.append_left (List.sublist_cons_self ..) _
  refine ⟨hv.primary, fun a ha => hv.aux a (hsub.subset ha),
    fun a ha => hv.nonempty a (hsub.subset ha),
    hv.keys.sublist (hsub.map _), fun hmem => hv.setf_first ?_⟩
  rw [haux]
  cases pre with
  | nil => exact map_subset _ (List.tail_sublist _).subset hmem
  | cons a pre =>
    rw [cons_append, tail_cons] at hmem ⊢
    exact map_subset _ (List.Sublist.append_left (List.sublist_cons_self ..) _).subset hmem

theorem packedInfoRemove_spec (hp : Packs p info) (hv : info.Valid setf)
    (key : AuxKey ω) (ns : List ℕ) :
    ∃ r, packedInfoRemove setf p key ns = some r ∧ IsRemoval setf info key ns r := by
  have hcells := unpackifyInfos_spec hp fun _ => .fixnum 0
  have hsize := computeUnpackifiedInfoSize_spec hp
  unfold packedInfoRemove
  by_cases hskip : p.len = (nilPackedInfos (ω := ω)).len ∨ auxKeyAbsent setf p key = true
  · rw [if_pos hskip]
    refine ⟨none, rfl, fun n _ => ?_⟩
    rcases hskip with hlen | habsent
    · -- A packed info of one cell has no data.
      have h1 : p.len = 1 := hlen
      have hdata := length_dataOf info.primary info.aux
      have hp' := hp.len
      rw [Nat.zero_add, Nat.zero_add] at hp'
      unfold descriptors at hp'
      rw [infosPerWord_eq] at hp'
      have hinfo : info = ⟨[], []⟩ := eq_nil_of_length_cells (by unfold Infos.cells; omega)
      rw [hinfo]
      cases key <;> rfl
    · cases key with
      | none => cases habsent
      | some k =>
        unfold Infos.lookup
        rw [group_of_not_mem ((auxKeyAbsent_iff hp hv).1 habsent)]
        rfl
  · rw [if_neg hskip, hsize]
    rw [not_or, Bool.not_eq_true] at hskip
    dsimp only
    generalize unpackifyInfos p (fun _ => .fixnum 0) = v at hcells ⊢
    have hgroup := validGroup_group hv key
    have hkeep := keep_eq_self_iff (info.group key) ns
    have hle : (keep (info.group key) ns).length ≤ (info.group key).length :=
      List.length_filter_le ..
    -- The group stays where it keeps an entry or is the primary one.
    have hstay : ∀ {before dataBefore post replace},
      Focus setf info key before dataBefore post replace →
        (before ≠ [] → info.group key ≠ []) → ¬(before ≠ [] ∧ keep (info.group key) ns = []) →
        (key ≠ none → before ≠ []) →
        ∃ r, (do
          let dataStart ← infoFindAuxKeyUnpacked key v info.cells.length
          let removed := removeLoop info.cells.length dataStart ns v info.cells.length
          if info.cells.length - removed.2 = 0 then some none
          else if removed.2 = 1 then some (some nilPackedInfos)
          else some <$> packifyInfos removed.1 removed.2) = some r ∧
            IsRemoval setf info key ns r := by
      intro before dataBefore post replace hfocus hne hstays hbefore
      have hself := hfocus.cells (info.group key)
      rw [hfocus.self] at hself
      have hstored := hcells
      rw [hself] at hstored
      obtain ⟨hloop, hlast⟩ :=
        removeLoop_spec ns hstored (congrArg List.length hself) le_rfl hgroup.nodup hne
      rw [if_neg hstays, ← hfocus.cells] at hloop hlast
      rw [hfocus.found v hcells, bind_eq_bind, bind_some]
      generalize removeLoop info.cells.length before.length ns v info.cells.length =
        r at hloop hlast ⊢
      obtain ⟨new, last⟩ := r
      dsimp only at hloop hlast ⊢
      rw [hlast]
      have hlen : (replace (keep (info.group key) ns)).cells.length + 2 * (info.group key).length =
          info.cells.length + 2 * (keep (info.group key) ns).length := by
        rw [hfocus.cells, hself]
        simp
        omega
      refine removal_of_cells hloop (hfocus.valid _ (validGroup_keep ns hgroup) fun hk hnil =>
        hstays ⟨hbefore hk, hnil⟩)
        (by omega) (Iff.trans (by omega) hkeep) (lookup_replace hfocus ns)
    cases key with
    | none => exact hstay (focus_primary hv) (fun h => absurd rfl h) (fun h => h.1 rfl) fun h => absurd rfl h
    | some k =>
      rcases aux_cases hv.keys k with ⟨pre, e, post, haux, hpre, hpost⟩ | h
      · have hk := group_some haux hpre
        have he : e ≠ [] := hv.nonempty (k, e) (by rw [haux]; simp)
        have hfocus := focus_aux hv haux hpre
        by_cases hempty : keep e ns = []
        · -- The key goes with its group.
          have hself := hfocus.cells e
          rw [← hk, hfocus.self] at hself
          have hstored := hcells
          rw [hself] at hstored
          have hbefore : cellsOf info.primary pre ++ [Obj.other k] ≠ [] := by simp
          obtain ⟨hloop, hlast⟩ :=
            removeLoop_spec ns hstored (congrArg List.length hself) le_rfl hgroup.nodup
            fun _ => by rw [hk]; exact he
          have hcells' : (cellsOf info.primary pre ++ [Obj.other k]).dropLast ++ auxCells post =
              (⟨info.primary, pre ++ post⟩ : Infos ω).cells := by
            rw [List.dropLast_concat]
            simp [Infos.cells, cellsOf, auxCells]
          rw [if_pos ⟨hbefore, by rw [hk]; exact hempty⟩, hcells'] at hloop hlast
          rw [hfocus.found v hcells, bind_eq_bind, bind_some]
          generalize removeLoop info.cells.length _ ns v info.cells.length = r at hloop hlast ⊢
          obtain ⟨new, last⟩ := r
          rw [hlast]
          have hlen : (⟨info.primary, pre ++ post⟩ : Infos ω).cells.length < info.cells.length := by
            rw [hself, ← hcells', List.dropLast_concat]
            simp only [length_append, length_cons]
            omega
          have hpos : (keep (info.group (some k)) ns).length ≠ (info.group (some k)).length := by
            rw [hk, hempty]
            exact fun h => he (length_eq_zero_iff.1 h.symm)
          refine removal_of_cells hloop (valid_remove hv haux) hlen.le
            (iff_of_false hlen.ne fun h => hpos (hkeep.2 h)) fun key' n => ?_
          unfold Infos.lookup
          by_cases hkey' : key' = some k
          · have hgone : (⟨info.primary, pre ++ post⟩ : Infos ω).group (some k) = [] := by
              refine group_of_not_mem fun a ha => ?_
              rcases mem_append.1 ha with ha | ha
              · exact hpre a ha
              · exact hpost a ha
            have hvalue := value_keep e ns n
            rw [hempty] at hvalue
            rw [hkey', hgone, hk]
            by_cases hn : n ∈ ns
            · rw [if_pos ⟨rfl, hn⟩]
              rfl
            · rw [if_neg hn] at hvalue
              rw [if_neg fun h => hn h.2]
              exact hvalue
          · rw [if_neg fun h => hkey' h.1]
            cases key' with
            | none => rfl
            | some k' =>
              have hne : k' ≠ k := fun h => hkey' (by rw [h])
              show Entries.value (AuxGroups.group (pre ++ post) k') n =
                Entries.value (AuxGroups.group info.aux k') n
              rw [haux, group_middle_of_ne hne]
        · exact hstay hfocus (fun _ => by rw [hk]; exact he) (fun hc =>
            hempty (by rw [← hk]; exact hc.2))
            fun _ => by simp
      · have := (auxKeyAbsent_iff hp hv).2 h
        rw [hskip.2] at this
        cases this

end Removal

/-! ## Replacement -/

section Replacement
variable [DecidableEq ω] {setf : ω} {p : PackedInfo ω} {info : Infos ω}

omit [DecidableEq ω] in
theorem validGroup_replace {n : ℕ} (h : ValidGroup (es ++ (n, x) :: rest)) :
    ValidGroup (es ++ (n, y) :: rest) := by
  have hmap : (es ++ (n, y) :: rest).map Prod.fst = (es ++ (n, x) :: rest).map Prod.fst := by simp
  refine ⟨by rw [hmap]; exact h.nodup, ?_, fun e he => ?_, ?_⟩
  · rw [map_tail, hmap, ← map_tail]
    exact h.fdefn_first
  · have hmem : e.1 ∈ (es ++ (n, x) :: rest).map Prod.fst := by
      rw [← hmap]
      exact mem_map_of_mem he
    obtain ⟨e', he', heq⟩ := mem_map.1 hmem
    rw [← heq]
    exact h.number_lt e' he'
  · have hlen := h.length_lt
    rw [length_append, length_cons] at hlen ⊢
    exact hlen

omit [DecidableEq ω] in
theorem packs_update {xs ys : List (Obj ω)} (hp : Packs p info)
    (hfields : info'.fields = info.fields) (hdata : info.data = xs ++ x :: ys)
    (hdata' : info'.data = xs ++ y :: ys) :
    Packs (copyWithValue p (p.len - 1 - xs.length) y) info' := by
  obtain ⟨hf, hd, hlen⟩ := hp
  have hf : Stored (fieldAt p) 0 info.fields := hf
  have hd : Stored (datumAt p) 0 info.data := hd
  have hlen : p.len = descriptors (0 + info.fields.length) + (0 + info.data.length) := hlen
  have hdlen : info.data.length = xs.length + (ys.length + 1) := by
    rw [hdata, length_append, length_cons]
  have hdlen' : info'.data.length = info.data.length := by
    rw [hdata', hdata, length_append, length_append, length_cons, length_cons]
  rw [Nat.zero_add, Nat.zero_add] at hlen
  refine ⟨?_, ?_, ?_⟩
  · show Stored (fieldAt (copyWithValue p (p.len - 1 - xs.length) y)) 0 info'.fields
    rw [hfields]
    refine hf.congr fun m hm => ?_
    unfold fieldAt packedInfoField copyWithValue
    dsimp only
    unfold descriptors at hlen
    rw [infosPerWord_eq] at *
    rw [update_of_ne (by omega)]
  · show Stored (datumAt (copyWithValue p (p.len - 1 - xs.length) y)) 0 info'.data
    rw [hdata', stored_append, stored_cons]
    rw [hdata, stored_append, stored_cons] at hd
    unfold datumAt copyWithValue at *
    dsimp only at *
    refine ⟨hd.1.congr fun m hm => ?_, ?_, hd.2.2.congr fun m hm => ?_⟩
    · rw [update_of_ne (by omega)]
    · rw [Nat.zero_add, update_self]
    · rw [update_of_ne (by omega)]
  · show p.len = descriptors (0 + info'.fields.length) + (0 + info'.data.length)
    rw [hfields, hdlen', Nat.zero_add, Nat.zero_add]
    exact hlen

theorem copyWithValue_spec (hp : Packs p info) (hv : info.Valid setf) {key : AuxKey ω} {n i : ℕ}
    (hindex : packedInfoValueIndex setf p key n = some (some i)) (y : Obj ω) :
    ∃ info', Packs (copyWithValue p i y) info' ∧ info'.Valid setf ∧
      ∀ key' n', info'.lookup key' n' =
        if key' = key ∧ n' = n then some y else info.lookup key' n' := by
  have hkey : ∀ k, key = some k → ∃ a ∈ info.aux, a.1 = k := by
    rintro k rfl
    by_contra hc
    push Not at hc
    rw [packedInfoValueIndex_absent hp hv hc] at hindex
    cases hindex
  obtain ⟨before, dataBefore, post, replace, hfocus⟩ := exists_focus hv key hkey
  rw [hfocus.index p hp, some_inj] at hindex
  have hgroup := validGroup_group hv key
  have hself := hfocus.self
  generalize hg : info.group key = g at hindex hgroup hself
  cases hfind : g.findIdx? (isNumber n) with
  | none =>
    rw [hfind] at hindex
    cases hindex
  | some j =>
    obtain ⟨es, x, rest, rfl, rfl⟩ := split_of_findIdx hfind
    rw [hfind, map_some, some_inj] at hindex
    have hi : i = p.len - 1 - (dataBefore ++ es.map Prod.snd).length := by
      rw [length_append, length_map]
      omega
    have hdata : ∀ z, (replace (es ++ (n, z) :: rest)).data =
        (dataBefore ++ es.map Prod.snd) ++ z :: (rest.map Prod.snd ++ auxData post) := fun z => by
      rw [hfocus.data]
      simp
    have hdata0 := hdata x
    rw [hself] at hdata0
    have hfields := hfocus.fields (es ++ (n, y) :: rest) (es ++ (n, x) :: rest) (by simp)
    rw [hself] at hfields
    rw [hi]
    refine ⟨_, packs_update hp hfields hdata0 (hdata y),
      hfocus.valid _ (validGroup_replace hgroup) fun _ => by simp, fun key' n' => ?_⟩
    unfold Infos.lookup
    by_cases hk : key' = key
    · have hnone : Entries.value (es ++ rest) n = none := by
        have hperm : List.Perm (es ++ (n, x) :: rest) ((n, x) :: (es ++ rest)) := perm_middle
        have hnodup := hgroup.nodup
        rw [(hperm.map Prod.fst).nodup_iff, map_cons, nodup_cons] at hnodup
        exact value_eq_none_iff.2 hnodup.1
      rw [hk, hfocus.group, hg, value_insert hnone, value_insert hnone]
      by_cases hn : n' = n
      · rw [if_pos hn, if_pos ⟨rfl, hn⟩]
      · rw [if_neg hn, if_neg fun h => hn h.2, if_neg hn]
    · rw [hfocus.group_of_ne _ _ hk, if_neg fun h => hk h.1]

end Replacement

/-! ## Runs -/

section Runs
variable [DecidableEq ω] (setf : ω)

abbrev InfoNumber := Fin (2 ^ infoNumberBits)

inductive Op (ω : Type) where
  | insert (key : AuxKey ω) (n : InfoNumber) (value : Obj ω)
  | replace (key : AuxKey ω) (n : InfoNumber) (value : Obj ω)
  | remove (key : AuxKey ω) (ns : List InfoNumber)

/-- An operation as `set-info-value` and `clear-info-values` make it: a pair that has an index is
replaced and not inserted, and nothing is stored where the function signals an error or returns NIL.
-/
def step (p : PackedInfo ω) : Op ω → PackedInfo ω
  | .insert key n value =>
    match packedInfoValueIndex setf p key n with
    | some none => (packedInfoInsert setf p key n value).getD p
    | _ => p
  | .replace key n value =>
    match packedInfoValueIndex setf p key n with
    | some (some index) => copyWithValue p index value
    | _ => p
  | .remove key ns =>
    match packedInfoRemove setf p key (ns.map Fin.val) with
    | some (some p') => p'
    | _ => p

def run (ops : List (Op ω)) : PackedInfo ω := ops.foldl (step setf) nilPackedInfos

/-- The finite map that a packed info stands for. -/
abbrev InfoMap (ω : Type) := AuxKey ω → ℕ → Option (Obj ω)

/-- How many info numbers a key has. -/
def InfoMap.count (m : InfoMap ω) (key : AuxKey ω) : ℕ :=
  ((Finset.range (2 ^ infoNumberBits)).filter fun n => (m key n).isSome = true).card

def InfoMap.set (m : InfoMap ω) (key : AuxKey ω) (n : ℕ) (value : Obj ω) : InfoMap ω :=
  fun key' n' => if key' = key ∧ n' = n then some value else m key' n'

/-- The map without some info numbers of a key. -/
def InfoMap.remove (m : InfoMap ω) (key : AuxKey ω) (ns : List ℕ) : InfoMap ω :=
  fun key' n' => if key' = key ∧ n' ∈ ns then none else m key' n'

/-- An operation on the map. A name cannot have all info numbers: their count would not be a field.
-/
def mapStep (m : InfoMap ω) : Op ω → InfoMap ω
  | .insert key n value => if m key n = none ∧ m.count key + 1 < 2 ^ infoNumberBits then
  m.set key n value else m
  | .replace key n value => if m key n = none then m else m.set key n value
  | .remove key ns => m.remove key (ns.map Fin.val)

def mapRun (ops : List (Op ω)) : InfoMap ω := ops.foldl mapStep fun _ _ => none

/-- `p` is a packed info for the map, and follows the conventions. -/
def Represents (p : PackedInfo ω) (m : InfoMap ω) : Prop :=
  ∃ info : Infos ω, Packs p info ∧ info.Valid setf ∧ ∀ key n, m key n = info.lookup key n

end Runs

section RunsSpec
variable [DecidableEq ω] {setf : ω} {p : PackedInfo ω} {m : InfoMap ω}

theorem count_eq {info : Infos ω} (hv : info.Valid setf) (hm : ∀ key n, m key n = info.lookup key n)
    (key : AuxKey ω) : m.count key = (info.group key).length := by
  have hgroup := validGroup_group hv key
  have hset : ((Finset.range (2 ^ infoNumberBits)).filter fun n => (m key n).isSome = true) =
      ((info.group key).map Prod.fst).toFinset := by
    ext n
    rw [Finset.mem_filter, Finset.mem_range, List.mem_toFinset, hm, Infos.lookup,
      Option.isSome_iff_ne_none, ne_eq, value_eq_none_iff, not_not]
    refine ⟨And.right, fun h => ⟨?_, h⟩⟩
    obtain ⟨e, he, rfl⟩ := mem_map.1 h
    exact hgroup.number_lt e he
  unfold InfoMap.count
  rw [hset, List.toFinset_card_of_nodup hgroup.nodup, length_map]

theorem represents_nil : Represents setf (nilPackedInfos : PackedInfo ω) fun _ _ => none := by
  refine ⟨⟨[], []⟩, packs_nil, valid_nil setf, fun key n => ?_⟩
  cases key with
  | none => rfl
  | some _ => rfl

theorem index_spec (h : Represents setf p m) (key : AuxKey ω) (n : ℕ) :
    ∃ r, packedInfoValueIndex setf p key n = some r ∧ IsValueIndex p (m key n) r := by
  obtain ⟨info, hp, hv, hm⟩ := h
  rw [hm]
  exact packedInfoValueIndex_spec hp hv key n

omit [DecidableEq ω] in
theorem isValueIndex_eq_none {value : Option (Obj ω)} {r : Option ℕ} (h : IsValueIndex p value r) :
    r = none ↔ value = none := by
  cases r with
  | none => exact iff_of_true rfl h
  | some i => exact iff_of_false (some_ne_none i) fun hc => some_ne_none _ (h.2.symm.trans hc)

theorem represents_insert (h : Represents setf p m) (key : AuxKey ω) (n : InfoNumber) (x : Obj ω)
    (hnone : m key n = none) : if m.count key + 1 < 2 ^ infoNumberBits then
      ∃ p', packedInfoInsert setf p key n x = some p' ∧ Represents setf p' (m.set key n x)
    else packedInfoInsert setf p key n x = none := by
  obtain ⟨info, hp, hv, hm⟩ := h
  have hnew : ↑n ∉ (info.group key).map Prod.fst := by
    rw [← value_eq_none_iff]
    exact (hm key n).symm.trans hnone
  rw [count_eq hv hm]
  by_cases hpresent : ∀ k, key = some k → ∃ a ∈ info.aux, a.1 = k
  · have hinsert := insertEntry_spec hp hv hpresent n.isLt hnew x
    by_cases hroom : (info.group key).length + 1 < 2 ^ infoNumberBits
    · rw [if_pos hroom] at hinsert ⊢
      obtain ⟨p', info', es, rest, hrun, hp', hv', hsplit, hgroup, hothers⟩ := hinsert
      refine ⟨p', hrun, info', hp', hv', fun key' n' => ?_⟩
      unfold InfoMap.set Infos.lookup
      by_cases hkey : key' = key
      · have hvalue : Entries.value (es ++ rest) ↑n = none := by
          rw [← hsplit]
          exact value_eq_none_iff.2 hnew
        rw [hkey, hgroup, value_insert hvalue, hm, Infos.lookup, hsplit]
        by_cases hn : n' = ↑n
        · rw [if_pos ⟨rfl, hn⟩, if_pos hn]
        · rw [if_neg fun hc => hn hc.2, if_neg hn]
      · rw [if_neg fun hc => hkey hc.1, hothers key' hkey, hm, Infos.lookup]
    · rw [if_neg hroom] at hinsert ⊢
      exact hinsert
  · push Not at hpresent
    obtain ⟨k, hk, habsent⟩ := hpresent
    subst hk
    have hempty : info.group (some k) = [] := group_of_not_mem habsent
    rw [hempty, length_nil, if_pos (by decide)]
    obtain ⟨p', info', hrun, hp', hv', hgroup, hothers⟩ := insertKey_spec hp hv habsent n.isLt x
    refine ⟨p', hrun, info', hp', hv', fun key' n' => ?_⟩
    unfold InfoMap.set Infos.lookup
    by_cases hkey : key' = some k
    · have hvalue : Entries.value ([] ++ ([] : Entries ω)) ↑n = none := rfl
      rw [hkey, hgroup, show [(↑n, x)] = [] ++ (↑n, x) :: ([] : Entries ω) from rfl,
        value_insert hvalue, hm, Infos.lookup, hempty]
      by_cases hn : n' = ↑n
      · rw [if_pos ⟨rfl, hn⟩, if_pos hn]
      · rw [if_neg fun hc => hn hc.2, if_neg hn]
        rfl
    · rw [if_neg fun hc => hkey hc.1, hothers key' hkey, hm, Infos.lookup]

theorem represents_replace (h : Represents setf p m) {key : AuxKey ω} {n i : ℕ}
    (hindex : packedInfoValueIndex setf p key n = some (some i)) (x : Obj ω) :
    Represents setf (copyWithValue p i x) (m.set key n x) := by
  obtain ⟨info, hp, hv, hm⟩ := h
  obtain ⟨info', hp', hv', hlookup⟩ := copyWithValue_spec hp hv hindex x
  refine ⟨info', hp', hv', fun key' n' => ?_⟩
  rw [hlookup, ← hm]
  rfl

theorem represents_remove (h : Represents setf p m) (key : AuxKey ω) (ns : List ℕ) :
    ∃ r, packedInfoRemove setf p key ns = some r ∧ (r = none ↔ ∀ n ∈ ns, m key n = none) ∧
      Represents setf (r.getD p) (m.remove key ns) := by
  obtain ⟨info, hp, hv, hm⟩ := h
  obtain ⟨r, hrun, hremoval⟩ := packedInfoRemove_spec hp hv key ns
  refine ⟨r, hrun, ?_⟩
  cases r with
  | none =>
    have hnone : ∀ n ∈ ns, m key n = none := fun n hn => (hm key n).trans (hremoval n hn)
    refine ⟨iff_of_true rfl hnone, info, hp, hv, fun key' n' => ?_⟩
    unfold InfoMap.remove
    by_cases hc : key' = key ∧ n' ∈ ns
    · rw [if_pos hc, hc.1, hremoval n' hc.2]
    · rw [if_neg hc, hm]
  | some p' =>
    obtain ⟨⟨n, hn, hne⟩, info', hp', hv', hlookup⟩ := hremoval
    refine ⟨iff_of_false (some_ne_none p') fun hc => hne ?_, info', hp', hv', fun key' n' => ?_⟩
    · rw [← hm]
      exact hc n hn
    · unfold InfoMap.remove
      rw [hlookup, hm]

theorem represents_step (h : Represents setf p m) (op : Op ω) :
    Represents setf (step setf p op) (mapStep m op) := by
  cases op with
  | insert key n x =>
    obtain ⟨r, hr, hindex⟩ := index_spec h key n
    have hnone := isValueIndex_eq_none hindex
    unfold step mapStep
    dsimp only
    rw [hr]
    cases r with
    | none =>
      have hlookup : m key n = none := hnone.1 rfl
      have hinsert := represents_insert h key n x hlookup
      by_cases hroom : m.count key + 1 < 2 ^ infoNumberBits
      · rw [if_pos hroom] at hinsert
        obtain ⟨p', hrun, hp'⟩ := hinsert
        rw [hrun, if_pos ⟨hlookup, hroom⟩]
        exact hp'
      · rw [if_neg hroom] at hinsert
        rw [hinsert, if_neg fun hc => hroom hc.2]
        exact h
    | some i =>
      rw [if_neg fun hc => some_ne_none i (hnone.2 hc.1)]
      exact h
  | replace key n x =>
    obtain ⟨r, hr, hindex⟩ := index_spec h key n
    have hnone := isValueIndex_eq_none hindex
    unfold step mapStep
    dsimp only
    rw [hr]
    cases r with
    | none =>
      rw [if_pos (hnone.1 rfl)]
      exact h
    | some i =>
      rw [if_neg fun hc => some_ne_none i (hnone.2 hc)]
      exact represents_replace h hr x
  | remove key ns =>
    obtain ⟨r, hr, -, hrep⟩ := represents_remove h key (ns.map Fin.val)
    unfold step mapStep
    dsimp only
    rw [hr]
    cases r with
    | none => exact hrep
    | some p' => exact hrep

theorem represents_run (ops : List (Op ω)) : Represents setf (run setf ops) (mapRun ops) := by
  unfold run mapRun
  induction ops using List.reverseRecOn with
  | nil => exact represents_nil
  | append_singleton ops op ih =>
    rw [List.foldl_append, List.foldl_append]
    exact represents_step ih op

/-- After any operations the packed info is one of the map that they make, and follows the
conventions. -/
theorem packed_info_run (setf : ω) (ops : List (Op ω)) :
    let p := run setf ops
    let m := mapRun ops
    (∃ info : Infos ω, Packs p info ∧ info.Valid setf ∧ ∀ key n, m key n = info.lookup key n) ∧
    (∀ key n, ∃ r, packedInfoValueIndex setf p key n = some r ∧ IsValueIndex p (m key n) r) ∧
    (∀ key (n : InfoNumber) x, m key n = none →
      if m.count key + 1 < 2 ^ infoNumberBits then
        ∃ p', packedInfoInsert setf p key n x = some p' ∧ Represents setf p' (m.set key n x)
      else packedInfoInsert setf p key n x = none) ∧
    (∀ key n i x, packedInfoValueIndex setf p key n = some (some i) →
      Represents setf (copyWithValue p i x) (m.set key n x)) ∧
    ∀ key ns, ∃ r, packedInfoRemove setf p key ns = some r ∧ (r = none ↔ ∀ n ∈ ns, m key n = none) ∧
      Represents setf (r.getD p) (m.remove key ns) :=
  have h := represents_run ops
  ⟨h, index_spec h, represents_insert h, fun _ _ _ x hindex => represents_replace h hindex x,
    represents_remove h⟩

end RunsSpec

end Sbcl.InfoVector
