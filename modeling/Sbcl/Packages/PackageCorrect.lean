import Mathlib.Data.List.Nodup
import Mathlib.Data.List.Perm.Basic
import Sbcl.Packages.Package

/-!
# Name conflicts (code/target-package.lisp)

* `Consistent` : one present symbol for each name, and one accessible symbol for each name that is
  not shadowed;
* `Found` : what `findSymbol` says about the accessible symbols, whatever table was used last;
* `Consistent.update` : a change of one package, seen from it and from the packages that use it;
* `run_consistent_iff` : the operations keep all packages consistent unless one of them uses
  KEYWORD.
-/

namespace Sbcl.Packages

open Function List Option

variable {P N : Type}
variable {b : Bool} {symbols : List (Sym N)} {users : List P} {k₀ : Package P N} {α : Type}
  {xs : List α} {x y : α}

/-! ## Consistency -/

def Package.present (k : Package P N) : List (Sym N) := k.internal ++ k.external

/-- The symbol is accessible, or would be if it were not shadowed. -/
def Visible (packages : P → Package P N) (k : Package P N) (s : Sym N) : Prop :=
  s ∈ k.present ∨ ∃ q ∈ k.tables, s ∈ (packages q).external

/-- For each name there is a shadowing symbol, or the visible symbols are one. -/
def Agrees (packages : P → Package P N) (k : Package P N) : Prop :=
  ∀ name, (∃ s ∈ k.shadowing, s.name = name) ∨
    ∀ s t, Visible packages k s → Visible packages k t → s.name = name → t.name = name → s = t

structure Consistent (reg : Registry P) (packages : P → Package P N) : Prop where
  unique : ∀ p, ((packages p).present.map Sym.name).Nodup
  shadowing : ∀ p, ∀ s ∈ (packages p).shadowing, s ∈ (packages p).present
  agrees : ∀ p, Agrees packages (packages p)
  keyword : ∀ p, reg.keyword ∉ (packages p).tables

/-- What is remembered about the users of a package is right. -/
def Coherent (w : World P N) : Prop :=
  ∀ p list, w.usedBy p = some list → ∀ user, user ∈ list ↔ p ∈ (w.packages user).tables

structure Invariant (reg : Registry P) (w : World P N) : Prop where
  consistent : Consistent reg w.packages
  coherent : Coherent w

section Basics

variable {reg : Registry P} {packages packages' : P → Package P N}
    {k k' : Package P N} {s t : Sym N}

theorem Package.eq_of_present (h : (k.present.map Sym.name).Nodup) (hs : s ∈ k.present)
    (ht : t ∈ k.present) (hname : s.name = t.name) : s = t :=
  inj_on_of_nodup_map h hs ht hname

theorem visible_of_internal (h : s ∈ k.internal) : Visible packages k s :=
  .inl (mem_append_left _ h)

theorem visible_of_external (h : s ∈ k.external) : Visible packages k s :=
  .inl (mem_append_right _ h)

theorem Agrees.mono (h : Agrees packages k)
    (hvisible : ∀ s, Visible packages' k' s → Visible packages k s)
    (hshadow : ∀ s ∈ k.shadowing, s ∈ k'.shadowing) : Agrees packages' k' := by
  intro name
  rcases h name with ⟨s, hs, hname⟩ | hone
  · exact .inl ⟨s, hshadow s hs, hname⟩
  · exact .inr fun s t hs ht => hone s t (hvisible s hs) (hvisible t ht)

/-- One symbol more, which is the only one of its name if no symbol shadows it. -/
theorem Agrees.extend (h : Agrees packages k)
    (hvisible : ∀ t, Visible packages' k' t → Visible packages k t ∨ t = s)
    (hone : (∃ s' ∈ k.shadowing, s'.name = s.name) ∨ ∀ t, Visible packages k t →
      t.name = s.name → t = s)
    (hshadow : ∀ t ∈ k.shadowing, t ∈ k'.shadowing) : Agrees packages' k' := by
  intro name
  rcases h name with ⟨s', hs', hname⟩ | hold
  · exact .inl ⟨s', hshadow s' hs', hname⟩
  by_cases hname : s.name = name
  · rcases hone with ⟨s', hs', hs'name⟩ | hone
    · exact .inl ⟨s', hshadow s' hs', hs'name.trans hname⟩
    refine .inr fun t u ht hu htname huname => ?_
    have heq : ∀ v, Visible packages' k' v → v.name = name → v = s := by
      intro v hv hvname
      rcases hvisible v hv with hv | hv
      · exact hone v hv (hvname.trans hname.symm)
      · exact hv
    rw [heq t ht htname, heq u hu huname]
  · refine .inr fun t u ht hu htname huname => ?_
    have hvis : ∀ v, Visible packages' k' v → v.name = name → Visible packages k v := by
      intro v hv hvname
      rcases hvisible v hv with hv | hv
      · exact hv
      · exact absurd (hv ▸ hvname) hname
    exact hold t u (hvis t ht htname) (hvis u hu huname) htname huname

theorem Agrees.shadow (h : Agrees packages k) (hs : s ∈ k'.shadowing)
    (hvisible : ∀ t, Visible packages' k' t → t.name ≠ s.name → Visible packages k t)
    (hshadow : ∀ t ∈ k.shadowing, t.name ≠ s.name → t ∈ k'.shadowing) : Agrees packages' k' := by
  intro name
  by_cases hname : s.name = name
  · exact .inl ⟨s, hs, hname⟩
  have hne : ∀ t : Sym N, t.name = name → t.name ≠ s.name := by
    intro t ht heq
    exact hname (heq.symm.trans ht)
  rcases h name with ⟨s', hs', hs'name⟩ | hone
  · exact .inl ⟨s', hshadow s' hs' (hne s' hs'name), hs'name⟩
  · exact .inr fun t u ht hu htname huname =>
      hone t u (hvisible t ht (hne t htname)) (hvisible u hu (hne u huname)) htname huname

end Basics

section Update

variable [DecidableEq P] {reg : Registry P} {packages : P → Package P N} {p : P} {k : Package P N}

theorem Consistent.update (h : Consistent reg packages) (hunique : (k.present.map Sym.name).Nodup)
    (hshadowing : ∀ s ∈ k.shadowing, s ∈ k.present) (hkeyword : reg.keyword ∉ k.tables)
    (hself : Agrees (update packages p k) k)
    (husers : ∀ r, r ≠ p → p ∈ (packages r).tables → Agrees (update packages p k) (packages r)) :
    Consistent reg (update packages p k) := by
  have hcases : ∀ {motive : Package P N → Prop} (r : P), motive k → (r ≠ p → motive (packages r)) →
      motive (Function.update packages p k r) := by
    intro motive r hp hr
    by_cases hrp : r = p
    · rw [hrp, update_self]
      exact hp
    · rw [update_of_ne hrp]
      exact hr hrp
  refine ⟨fun r => ?_, fun r => ?_, fun r => ?_, fun r => ?_⟩
  · exact hcases (motive := fun k => (k.present.map Sym.name).Nodup) r hunique fun _ => h.unique r
  · exact hcases (motive := fun k => ∀ s ∈ k.shadowing, s ∈ k.present) r hshadowing
      fun _ => h.shadowing r
  · refine hcases (motive := Agrees (Function.update packages p k)) r hself fun hr => ?_
    by_cases huse : p ∈ (packages r).tables
    · exact husers r hr huse
    refine (h.agrees r).mono (fun s hs => ?_) fun s hs => hs
    rcases hs with hs | ⟨q, hq, hs⟩
    · exact .inl hs
    have hqp : q ≠ p := by
      intro heq
      exact huse (heq ▸ hq)
    refine .inr ⟨q, hq, ?_⟩
    rwa [update_of_ne hqp] at hs
  · exact hcases (motive := fun k => reg.keyword ∉ k.tables) r hkeyword fun _ => h.keyword r

theorem visible_of_update {k' : Package P N}
    (hexternal : ∀ s ∈ k.external, s ∈ (packages p).external) {s : Sym N}
    (h : Visible (Function.update packages p k) k' s) : Visible packages k' s := by
  rcases h with h | ⟨q, hq, h⟩
  · exact .inl h
  refine .inr ⟨q, hq, ?_⟩
  by_cases hqp : q = p
  · rw [hqp, update_self] at h
    rw [hqp]
    exact hexternal s h
  · rwa [update_of_ne hqp] at h

theorem visible_of_internals {k' : Package P N} {internal : List (Sym N)} {s : Sym N}
    (h : Visible (Function.update packages p { packages p with internal := internal }) k' s) :
    Visible packages k' s :=
  @visible_of_update P N _ packages p { packages p with internal := internal } k'
    (fun _ ht => ht) s h

theorem Consistent.update_of_external (h : Consistent reg packages)
    (hunique : (k.present.map Sym.name).Nodup)
    (hshadowing : ∀ s ∈ k.shadowing, s ∈ k.present) (hkeyword : reg.keyword ∉ k.tables)
    (hexternal : ∀ s ∈ k.external, s ∈ (packages p).external) (hself : Agrees packages k) :
    Consistent reg (Function.update packages p k) :=
  h.update hunique hshadowing hkeyword
    (hself.mono (fun _ => visible_of_update hexternal) fun _ hs => hs)
    fun r _ _ => (h.agrees r).mono (fun _ => visible_of_update hexternal) fun _ hs => hs

end Update

/-! ## Lookup -/

section Lookup

variable [DecidableEq N] {table : List (Sym N)} {s t : Sym N} {name : N}

theorem of_lookup_eq_some (h : lookup table name = some s) : s ∈ table ∧ s.name = name :=
  ⟨mem_of_find?_eq_some h, by simpa using find?_some h⟩

theorem of_lookup_eq_none (h : lookup table name = none) (hs : s ∈ table) : s.name ≠ name := by
  have hnone := find?_eq_none.mp h s hs
  simpa using hnone

theorem lookup_eq_some (hunique : (table.map Sym.name).Nodup) (hs : s ∈ table) :
    lookup table s.name = some s := by
  cases h : lookup table s.name with
  | none => exact absurd rfl (of_lookup_eq_none h hs)
  | some t =>
    obtain ⟨ht, hname⟩ := of_lookup_eq_some h
    rw [inj_on_of_nodup_map hunique ht hs hname]

theorem nukeSymbol_eq_filter : ∀ {table : List (Sym N)}, (table.map Sym.name).Nodup → s ∈ table →
    nukeSymbol table s = table.filter (· ≠ s)
  | t :: table, hunique, hs => by
    rw [map_cons, nodup_cons] at hunique
    unfold nukeSymbol
    by_cases hname : t.name = s.name
    · rw [eraseP_cons_of_pos (by simp [hname])]
      have hts : t = s := by
        rcases mem_cons.mp hs with heq | hmem
        · exact heq.symm
        · exact absurd (mem_map_of_mem hmem) (hname ▸ hunique.1)
      rw [filter_cons_of_neg (by simp [hts])]
      refine (filter_eq_self.mpr fun u hu => ?_).symm
      have hus : u ≠ s := by
        intro heq
        exact hunique.1 (hname ▸ heq ▸ mem_map_of_mem hu)
      simpa using hus
    · have hts : t ≠ s := fun heq => hname (heq ▸ rfl)
      have hmem : s ∈ table := by
        rcases mem_cons.mp hs with heq | hmem
        · exact absurd heq.symm hts
        · exact hmem
      rw [eraseP_cons_of_neg (by simp [hname]), filter_cons_of_pos (by simp [hts])]
      exact congrArg (t :: ·) (nukeSymbol_eq_filter hunique.2 hmem)

theorem mem_searchOrder {n mru i : ℕ} (h : i < n) : i ∈ searchOrder n mru := by
  unfold searchOrder
  simp only [mem_append, mem_reverse, mem_range, mem_range']
  by_cases hi : i < (if mru < n then mru else 0) + 1
  · exact .inl hi
  · exact .inr ⟨i - ((if mru < n then mru else 0) + 1), by omega, by omega⟩

end Lookup

/-- What is known of a package from the result of a lookup. -/
inductive Found (packages : P → Package P N) (k : Package P N) (name : N) :
  Option (Sym N × Status) → Prop
  | internal {s : Sym N} : s ∈ k.internal → s.name = name →
    Found packages k name (some (s, .internal))
  | external {s : Sym N} : s ∈ k.external → s.name = name →
    Found packages k name (some (s, .external))
  | inherited {s : Sym N} {q : P} : (∀ t ∈ k.present, t.name ≠ name) → q ∈ k.tables →
    s ∈ (packages q).external →
      s.name = name → Found packages k name (some (s, .inherited))
  | none : (∀ t, Visible packages k t → t.name ≠ name) → Found packages k name none

/-- The packages and their users are the same; a lookup changes no more than what was used last. -/
structure SameGraph (w w' : World P N) : Prop where
  packages : w'.packages = w.packages
  usedBy : w'.usedBy = w.usedBy

theorem SameGraph.refl (w : World P N) : SameGraph w w := ⟨rfl, rfl⟩

theorem SameGraph.trans {w w' w'' : World P N} (h : SameGraph w w') (h' : SameGraph w' w'') :
    SameGraph w w'' :=
  ⟨h'.packages.trans h.packages, h'.usedBy.trans h.usedBy⟩

section FindSymbol

variable [DecidableEq P] [DecidableEq N]

omit [DecidableEq P] in
theorem findInherited_spec (w : World P N) (p : P) (name : N) :
    match w.findInherited p name with
    | some (s, _) => (∃ q ∈ (w.packages p).tables, s ∈ (w.packages q).external) ∧ s.name = name
    | none => ∀ q ∈ (w.packages p).tables, ∀ s ∈ (w.packages q).external, s.name ≠ name := by
  split
  · rename_i s i heq
    obtain ⟨j, -, hj⟩ := exists_of_findSome?_eq_some heq
    obtain ⟨q, hq, hj⟩ := bind_eq_some_iff.1 hj
    obtain ⟨t, ht, hpair⟩ := map_eq_some_iff.1 hj
    cases hpair
    obtain ⟨hmem, hname⟩ := of_lookup_eq_some ht
    exact ⟨⟨q, mem_of_getElem? hq, hmem⟩, hname⟩
  · rename_i heq
    intro q hq s hs hname
    obtain ⟨i, hi, hget⟩ := getElem_of_mem hq
    have hnone := findSome?_eq_none_iff.mp heq i (mem_searchOrder hi)
    rw [getElem?_eq_getElem hi, hget, bind_some, map_eq_none_iff] at hnone
    exact of_lookup_eq_none hnone hs hname

theorem found_findSymbol (w : World P N) (p : P) (name : N) :
    Found w.packages (w.packages p) name (w.findSymbol p name).1 ∧
    SameGraph w (w.findSymbol p name).2 := by
  unfold World.findSymbol
  cases hinternal : lookup (w.packages p).internal name with
  | some s =>
    obtain ⟨hs, hname⟩ := of_lookup_eq_some hinternal
    exact ⟨.internal hs hname, .refl w⟩
  | none =>
    cases hexternal : lookup (w.packages p).external name with
    | some s =>
      obtain ⟨hs, hname⟩ := of_lookup_eq_some hexternal
      exact ⟨.external hs hname, .refl w⟩
    | none =>
      have hpresent : ∀ t ∈ (w.packages p).present, t.name ≠ name := by
        intro t ht
        rcases mem_append.mp ht with ht | ht
        · exact of_lookup_eq_none hinternal ht
        · exact of_lookup_eq_none hexternal ht
      have hspec := findInherited_spec w p name
      cases hinherited : w.findInherited p name with
      | some found =>
        rw [hinherited] at hspec
        obtain ⟨⟨q, hq, hs⟩, hname⟩ := hspec
        exact ⟨.inherited hpresent hq hs hname, rfl, rfl⟩
      | none =>
        rw [hinherited] at hspec
        refine ⟨.none fun t ht => ?_, .refl w⟩
        rcases ht with ht | ⟨q, hq, ht⟩
        · exact hpresent t ht
        · exact hspec q hq t ht

theorem findSymbol_cases (w : World P N) (p : P) (name : N) : ∃ found w',
    w.findSymbol p name = (found, w') ∧
    Found w.packages (w.packages p) name found ∧ SameGraph w w' :=
  ⟨_, _, rfl, found_findSymbol w p name⟩

end FindSymbol

namespace Found

variable {packages : P → Package P N} {k : Package P N} {name : N} {s t : Sym N} {status : Status}

theorem visible (h : Found packages k name (some (s, status))) : Visible packages k s ∧
    s.name = name := by
  cases h with
  | internal hs hname => exact ⟨visible_of_internal hs, hname⟩
  | external hs hname => exact ⟨visible_of_external hs, hname⟩
  | inherited _ hq hs hname => exact ⟨.inr ⟨_, hq, hs⟩, hname⟩

theorem present (h : Found packages k name (some (s, status))) (hstatus : status ≠ .inherited) :
    s ∈ k.present := by
  cases h with
  | internal hs _ => exact mem_append_left _ hs
  | external hs _ => exact mem_append_right _ hs
  | inherited _ _ _ _ => exact absurd rfl hstatus

theorem ne_of_none (h : Found packages k name Option.none) (ht : Visible packages k t) :
    t.name ≠ name := by
  cases h with
  | none hnone => exact hnone t ht

theorem absent_of_none (h : Found packages k name Option.none) : ∀ t ∈ k.present, t.name ≠ name :=
  fun _ ht => h.ne_of_none (.inl ht)

theorem absent_of_inherited (h : Found packages k name (some (s, .inherited))) : ∀ t ∈ k.present,
    t.name ≠ name := by
  cases h with
  | inherited habsent _ _ _ => exact habsent

theorem of_present {found : Option (Sym N × Status)} (h : Found packages k s.name found)
    (hunique : (k.present.map Sym.name).Nodup) (hs : s ∈ k.present) :
    ∃ status, found = some (s, status) ∧ status ≠ .inherited := by
  match found with
  | Option.none => exact absurd rfl (h.absent_of_none s hs)
  | some (t, status) =>
    by_cases hstatus : status = .inherited
    · subst hstatus
      exact absurd rfl (h.absent_of_inherited s hs)
    · rw [Package.eq_of_present hunique hs (h.present hstatus) h.visible.2.symm]
      exact ⟨status, rfl, hstatus⟩

/-- Without a shadowing symbol, what is found is the only symbol of its name. -/
theorem eq_of_visible (hagrees : Agrees packages k) (h : Found packages k name (some (s, status)))
    (hshadow : ∀ t ∈ k.shadowing, t.name ≠ name) (ht : Visible packages k t)
    (hname : t.name = name) : t = s := by
  rcases hagrees name with ⟨t', ht', ht'name⟩ | hone
  · exact absurd ht'name (hshadow t' ht')
  · exact hone t s ht h.visible.1 hname h.visible.2

end Found

/-! ## Changes of one package -/

section Changes

variable {reg : Registry P} {w w' : World P N} {p : P} {k : Package P N} {s : Sym N}

theorem Invariant.of_same (h : Invariant reg w) (hsame : SameGraph w w') : Invariant reg w' := by
  refine ⟨hsame.packages ▸ h.consistent, fun q list hlist user => ?_⟩
  rw [hsame.usedBy] at hlist
  rw [hsame.packages]
  exact h.coherent q list hlist user

/-- No symbol of the name is present, and no other is visible. -/
structure Importable (w : World P N) (p : P) (s : Sym N) : Prop where
  absent : ∀ t ∈ (w.packages p).present, t.name ≠ s.name
  only : ∀ t, Visible w.packages (w.packages p) t → t.name = s.name → t = s

theorem Importable.of_same (h : Importable w p s) (hsame : SameGraph w w') : Importable w' p s := by
  refine ⟨?_, ?_⟩
  · rw [hsame.packages]
    exact h.absent
  · rw [hsame.packages]
    exact h.only

theorem visible_addInternal {packages : P → Package P N} {t : Sym N}
    (h : Visible packages { k with internal := s :: k.internal } t) :
    Visible packages k t ∨ t = s := by
  rcases h with h | h
  · rcases mem_cons.mp h with heq | hmem
    · exact .inr heq
    · exact .inl (.inl hmem)
  · exact .inl (.inr h)

theorem nodup_addInternal (hunique : (k.present.map Sym.name).Nodup)
    (hs : ∀ t ∈ k.present, t.name ≠ s.name) :
    (({ k with internal := s :: k.internal } : Package P N).present.map Sym.name).Nodup := by
  refine nodup_cons.mpr ⟨fun hmem => ?_, hunique⟩
  obtain ⟨t, ht, hname⟩ := mem_map.mp hmem
  exact hs t ht hname

theorem importable_of_none {s : Sym N} (h : Found w.packages (w.packages p) s.name none) :
    Importable w p s :=
  ⟨h.absent_of_none, fun _ ht hname => absurd hname (h.ne_of_none ht)⟩

theorem importable_of_inherited (h : Invariant reg w) {name : N} {s : Sym N}
    (hfound : Found w.packages (w.packages p) name (some (s, .inherited))) : Importable w p s := by
  have hname := hfound.visible.2
  subst hname
  refine ⟨hfound.absent_of_inherited, fun t ht htname => ?_⟩
  exact hfound.eq_of_visible (h.consistent.agrees p)
    (fun t' ht' => hfound.absent_of_inherited t' (h.consistent.shadowing p t' ht')) ht htname

variable [DecidableEq P]

theorem Coherent.update (h : Coherent w) (hpackages : w'.packages = update w.packages p k)
    (husedBy : w'.usedBy = w.usedBy)
    (htables : k.tables = (w.packages p).tables) : Coherent w' := by
  intro q list hlist user
  rw [husedBy] at hlist
  rw [hpackages]
  by_cases huser : user = p
  · rw [huser, update_self, htables]
    exact h q list hlist p
  · rw [update_of_ne huser]
    exact h q list hlist user

theorem Invariant.update_of_external (h : Invariant reg w)
    (hpackages : w'.packages = update w.packages p k)
    (husedBy : w'.usedBy = w.usedBy) (htables : k.tables = (w.packages p).tables)
    (hunique : (k.present.map Sym.name).Nodup) (hshadowing : ∀ s ∈ k.shadowing, s ∈ k.present)
    (hexternal : ∀ s ∈ k.external, s ∈ (w.packages p).external) (hself : Agrees w.packages k) :
    Invariant reg w' := by
  refine ⟨?_, h.coherent.update hpackages husedBy htables⟩
  rw [hpackages]
  exact h.consistent.update_of_external hunique hshadowing (htables ▸
    h.consistent.keyword p) hexternal hself

theorem Invariant.addInternal (h : Invariant reg w) (hs : Importable w p s) :
    Invariant reg (w.addInternal p s) := by
  refine h.update_of_external rfl rfl rfl (nodup_addInternal (h.consistent.unique p) hs.absent)
    (fun t ht => ?_) (fun t ht => ht) ?_
  · exact mem_cons_of_mem _ (h.consistent.shadowing p t ht)
  · exact (h.consistent.agrees p).extend (fun t => visible_addInternal) (.inr hs.only) fun t ht =>
      ht

theorem Importable.addInternal {t : Sym N} (hs : Importable w p s) (hname : s.name ≠ t.name) :
    Importable (w.addInternal p t) p s := by
  have hpackage : ((w.addInternal p t).packages p) =
      { w.packages p with internal := t :: (w.packages p).internal } :=
    update_self _ _ _
  refine ⟨fun u hu => ?_, fun u hu huname => ?_⟩
  · rw [hpackage] at hu
    rcases mem_cons.mp hu with rfl | hmem
    · exact hname.symm
    · exact hs.absent u hmem
  · rw [hpackage] at hu
    rcases visible_addInternal (visible_of_internals hu) with hvisible | rfl
    · exact hs.only u hvisible huname
    · exact absurd huname.symm hname

end Changes

/-! ## Interning and importing -/

section Import

variable [DecidableEq P] [DecidableEq N] {reg : Registry P} {w w' : World P N} {p : P}

omit [DecidableEq N] in
/-- Nobody uses KEYWORD, so that new external symbols of it do no harm. -/
theorem Invariant.addExternal_keyword (h : Invariant reg w) {s : Sym N}
    (hs : Importable w reg.keyword s) : Invariant reg (w.addExternal reg.keyword s) := by
  refine ⟨?_, h.coherent.update rfl rfl rfl⟩
  have hunique := h.consistent.unique reg.keyword
  refine h.consistent.update ?_ (fun t ht => ?_) (h.consistent.keyword _) ?_ fun r _ huse =>
    absurd huse (h.consistent.keyword r)
  · have hperm : (s :: (w.packages reg.keyword).present).Perm
        ((w.packages reg.keyword).internal ++ s :: (w.packages reg.keyword).external) :=
          perm_middle.symm
    exact ((hperm.map Sym.name).nodup_iff).mp (nodup_addInternal hunique hs.absent)
  · have hmem := h.consistent.shadowing reg.keyword t ht
    rcases mem_append.mp hmem with hmem | hmem
    · exact mem_append_left _ hmem
    · exact mem_append_right _ (mem_cons_of_mem _ hmem)
  refine (h.consistent.agrees reg.keyword).extend (fun t ht => ?_) (.inr hs.only) fun t ht => ht
  rcases ht with ht | ⟨q, hq, ht⟩
  · rcases mem_append.mp ht with ht | ht
    · exact .inl (visible_of_internal ht)
    · rcases mem_cons.mp ht with rfl | ht
      · exact .inr rfl
      · exact .inl (visible_of_external ht)
  · have hq' : q ≠ reg.keyword := by
      intro heq
      exact h.consistent.keyword _ (heq ▸ hq)
    rw [update_of_ne hq'] at ht
    exact .inl (.inr ⟨q, hq, ht⟩)

theorem Invariant.intern (h : Invariant reg w) (name : N) :
    Invariant reg (w.intern p reg name).2.2 := by
  unfold World.intern
  obtain ⟨found, w1, hfind, hfound, hsame⟩ := findSymbol_cases w p name
  rw [hfind]
  cases found with
  | some found => exact h.of_same hsame
  | none =>
    have hsame2 : SameGraph w (w1.makeSymbol p name).2 := hsame.trans ⟨rfl, rfl⟩
    have himportable : ∀ s : Sym N, s.name = name → Importable (w1.makeSymbol p name).2 p s := by
      intro s hs
      subst hs
      exact (importable_of_none hfound).of_same hsame2
    dsimp only
    split
    · rename_i hkeyword
      subst hkeyword
      exact (h.of_same hsame2).addExternal_keyword (himportable _ rfl)
    · exact (h.of_same hsame2).addInternal (himportable _ rfl)

/-- The groups have different names, and their symbols have the name of the group. -/
structure Groups (groups : List (N × List (Sym N))) : Prop where
  names : (groups.map Prod.fst).Nodup
  symbols : ∀ group ∈ groups, ∀ s ∈ group.2, s.name = group.1

theorem nodup_eraseDups [DecidableEq α] : ∀ xs : List α, xs.eraseDups.Nodup := by
  intro xs
  induction h : xs.length using Nat.strongRecOn generalizing xs with
  | _ n ih =>
    cases xs with
    | nil => simp
    | cons x xs =>
      rw [eraseDups_cons, nodup_cons]
      refine ⟨fun hmem => ?_, ?_⟩
      · rw [mem_eraseDups] at hmem
        simp at hmem
      · refine ih _ ?_ _ rfl
        rw [← h, length_cons]
        exact Nat.lt_succ_of_le (length_filter_le _ _)

theorem groups_nameGroups (symbols : List (Sym N)) : Groups (nameGroups symbols) := by
  unfold nameGroups
  refine ⟨?_, fun group hgroup s hs => ?_⟩
  · rw [List.map_map]
    have hfst : (Prod.fst ∘ fun name => (name, (symbols.filter fun s => s.name = name).eraseDups)) =
        (id : N → N) := rfl
    rw [hfst, List.map_id]
    exact nodup_eraseDups _
  · obtain ⟨name, -, rfl⟩ := mem_map.mp hgroup
    rw [mem_eraseDups, mem_filter] at hs
    simpa using hs.2

theorem mem_nameGroups {s : Sym N} (hs : s ∈ symbols) :
    ∃ group ∈ nameGroups symbols, group.1 = s.name ∧ s ∈ group.2 := by
  refine ⟨_, mem_map_of_mem (mem_eraseDups.mpr (mem_map_of_mem hs)), rfl, ?_⟩
  rw [mem_eraseDups, mem_filter]
  exact ⟨hs, by simp⟩

/-- What the check of `import` leaves to add, for the groups that were gone through. -/
structure Pending (w : World P N) (p : P) (syms : List (Sym N)) : Prop where
  importable : ∀ s ∈ syms, Importable w p s
  names : (syms.map Sym.name).Nodup

/-- The groups that are still there are about other names. -/
def Apart (syms : List (Sym N)) (groups : List (N × List (Sym N))) : Prop :=
  ∀ group ∈ groups, ∀ s ∈ syms, s.name ≠ group.1

omit [DecidableEq P] [DecidableEq N] in
theorem Pending.cons {syms : List (Sym N)} {s : Sym N} (h : Pending w p syms)
    (hs : Importable w p s) (hname : ∀ t ∈ syms, t.name ≠ s.name) : Pending w p (s :: syms) := by
  refine ⟨forall_mem_cons.mpr ⟨hs, h.importable⟩, nodup_cons.mpr ⟨fun hmem => ?_, h.names⟩⟩
  obtain ⟨t, ht, heq⟩ := mem_map.mp hmem
  exact hname t ht heq

omit [DecidableEq P] [DecidableEq N] in
theorem Pending.of_same {syms : List (Sym N)} (h : Pending w p syms) (hsame : SameGraph w w') :
    Pending w' p syms :=
  ⟨fun s hs => (h.importable s hs).of_same hsame, h.names⟩

theorem importGroups_spec :
    ∀ {groups : List (N × List (Sym N))} {w w' : World P N} {syms syms' : List (Sym N)},
    Invariant reg w → Groups groups → Pending w p syms → Apart syms groups →
    World.importGroups p w syms groups = some (syms', w') →
    SameGraph w w' ∧ Pending w' p syms' ∧ (∀ s ∈ syms, s ∈ syms') ∧
      ∀ group ∈ groups, ∀ s ∈ group.2, s ∈ syms' ∨ s ∈ (w.packages p).present
  | [], w, w', syms, syms', _, _, hpending, _, h => by
    cases h
    exact ⟨.refl w, hpending, fun s hs => hs, fun group hgroup => absurd hgroup (by simp)⟩
  | (name, group) :: groups, w, w', syms, syms', hinv, hgroups, hpending, hapart, h => by
    have hnames := nodup_cons.mp hgroups.names
    have hgroups' : Groups groups :=
      ⟨hnames.2, fun g hg => hgroups.symbols g (mem_cons_of_mem _ hg)⟩
    have hapart' : Apart syms groups := fun g hg => hapart g (mem_cons_of_mem _ hg)
    have hsname : ∀ s ∈ group, s.name = name := hgroups.symbols (name, group) mem_cons_self
    have hother : ∀ g ∈ groups, name ≠ g.1 := by
      intro g hg heq
      apply hnames.1
      exact mem_map.mpr ⟨g, hg, heq.symm⟩
    have hcons : ∀ {s : Sym N}, s.name = name → Apart (s :: syms) groups := fun hs g hg =>
      forall_mem_cons.mpr ⟨hs ▸ hother g hg, hapart' g hg⟩
    unfold World.importGroups at h
    obtain ⟨found, w1, hfind, hfound, hsame⟩ := findSymbol_cases w p name
    rw [hfind] at h
    have hinv1 := hinv.of_same hsame
    -- The symbol of the group is to be added.
    have hadd : ∀ s : Sym N, [s] = group → Importable w p s →
      World.importGroups p w1 (s :: syms) groups = some (syms', w') →
        SameGraph w w' ∧ Pending w' p syms' ∧ (∀ t ∈ syms, t ∈ syms') ∧
          ∀ g ∈ (name, group) :: groups, ∀ t ∈ g.2, t ∈ syms' ∨ t ∈ (w.packages p).present := by
      rintro s rfl himportable h
      obtain rfl := hsname s mem_cons_self
      have hpending1 := (hpending.of_same hsame).cons (himportable.of_same hsame) fun t ht =>
        hapart (s.name, [s]) mem_cons_self t ht
      obtain ⟨hsame', hpending', hsub, hall⟩ :=
        importGroups_spec hinv1 hgroups' hpending1 (hcons rfl) h
      obtain ⟨hs, hsub⟩ := forall_mem_cons.mp hsub
      refine ⟨hsame.trans hsame', hpending', hsub,
        forall_mem_cons.mpr ⟨fun t ht => ?_, hsame.packages ▸ hall⟩⟩
      rw [mem_singleton.mp ht]
      exact .inl hs
    match found, group, h with
    | none, [s], h =>
      obtain rfl := hsname s mem_cons_self
      exact hadd s rfl (importable_of_none hfound) h
    | some (s, status), [s'], h =>
      dsimp only at h
      split at h
      · rename_i heq
        subst heq
        by_cases hstatus : status = .inherited
        · subst hstatus
          exact hadd s' rfl (importable_of_inherited hinv hfound) h
        rw [if_neg hstatus] at h
        obtain ⟨hsame', hpending', hsub, hall⟩ :=
          importGroups_spec hinv1 hgroups' (hpending.of_same hsame) hapart' h
        refine ⟨hsame.trans hsame', hpending', hsub,
          forall_mem_cons.mpr ⟨fun t ht => ?_, hsame.packages ▸ hall⟩⟩
        rw [mem_singleton.mp ht]
        exact .inr (hfound.present hstatus)
      · cases h

omit [DecidableEq N] in
theorem addInternals_spec : ∀ {syms : List (Sym N)} {w : World P N}, Invariant reg w →
    Pending w p syms → Invariant reg (syms.foldl (fun w sym => w.addInternal p sym) w) ∧
      ∃ internal, (syms.foldl (fun w sym => w.addInternal p sym) w).packages
          = update w.packages p { w.packages p with internal := internal } ∧
        ∀ s, s ∈ internal ↔ s ∈ syms ∨ s ∈ (w.packages p).internal
  | [], w, hinv, _ => by
    refine ⟨hinv, (w.packages p).internal, ?_, by simp⟩
    exact (update_eq_self p w.packages).symm
  | sym :: syms, w, hinv, hpending => by
    have hnames := nodup_cons.mp hpending.names
    have hsym := hpending.importable sym mem_cons_self
    have hpending' : Pending (w.addInternal p sym) p syms := by
      refine ⟨fun s hs => ?_, hnames.2⟩
      refine (hpending.importable s (mem_cons_of_mem _ hs)).addInternal fun heq => ?_
      exact hnames.1 (heq ▸ mem_map_of_mem hs)
    obtain ⟨hinv', internal, hpackages, hmem⟩ := addInternals_spec (hinv.addInternal hsym) hpending'
    refine ⟨hinv', internal, ?_, fun s => ?_⟩
    · rw [foldl_cons, hpackages]
      have hpackage : ((w.addInternal p sym).packages p) =
          { w.packages p with internal := sym :: (w.packages p).internal } :=
        update_self _ _ _
      rw [hpackage]
      exact update_idem _ _ _
    · have hpackage : ((w.addInternal p sym).packages p).internal = sym ::
          (w.packages p).internal := by
        show (update w.packages p _ p).internal = _
        rw [update_self]
      rw [hmem, hpackage]
      simp only [mem_cons]
      tauto

/-- The symbols are present afterwards, and only internal symbols were added. -/
theorem Invariant.import_spec (h : Invariant reg w) (hrun : w.import p symbols = some w') :
    Invariant reg w' ∧ ∃ internal,
      w'.packages = update w.packages p { w.packages p with internal := internal } ∧
      (∀ s ∈ (w.packages p).internal, s ∈ internal) ∧ ∀ s ∈ symbols, s ∈ internal ∨
        s ∈ (w.packages p).external := by
  obtain ⟨⟨syms, w1⟩, hgroups, hrun⟩ := bind_eq_some_iff.1 hrun
  cases hrun
  obtain ⟨hsame, hpending, -, hall⟩ :=
    importGroups_spec h (groups_nameGroups symbols) ⟨by simp, by simp⟩
    (fun _ _ s hs => absurd hs (by simp)) hgroups
  obtain ⟨hinv, internal, hpackages, hmem⟩ := addInternals_spec (h.of_same hsame) hpending
  refine ⟨hinv.of_same ⟨rfl, rfl⟩, internal, ?_,
    fun s hs => (hmem s).mpr (.inr (hsame.packages ▸ hs)), fun s hs => ?_⟩
  · show (syms.foldl (fun w sym => w.addInternal p sym) w1).packages = _
    rw [hpackages, hsame.packages]
  obtain ⟨group, hgroup, -, hsgroup⟩ := mem_nameGroups hs
  rcases hall group hgroup s hsgroup with hsyms | hpresent
  · exact .inl ((hmem s).mpr (.inl hsyms))
  · rcases mem_append.mp hpresent with hinternal | hexternal
    · exact .inl ((hmem s).mpr (.inr (hsame.packages ▸ hinternal)))
    · exact .inr hexternal

end Import

/-! ## Uninterning and shadowing -/

section Shadow

variable [DecidableEq P] [DecidableEq N] {reg : Registry P} {w w' : World P N} {p : P}
    {k : Package P N} {s : Sym N}

/-- The package without the symbol. -/
def Package.without (k : Package P N) (s : Sym N) : Package P N :=
  { k with
    internal := k.internal.filter (· ≠ s)
    external := k.external.filter (· ≠ s)
    shadowing := k.shadowing.filter (· ≠ s) }

omit [DecidableEq P] in
theorem Package.present_without (k : Package P N) (s : Sym N) :
    (k.without s).present = k.present.filter (· ≠ s) :=
  (filter_append _ _).symm

omit [DecidableEq P] in
theorem filter_ne_of_notMem {table : List (Sym N)} (h : s ∉ table) :
    table.filter (· ≠ s) = table := by
  refine filter_eq_self.mpr fun t ht => ?_
  have hts : t ≠ s := by
    intro heq
    exact h (heq ▸ ht)
  simpa using hts

omit [DecidableEq P] in
theorem nodup_without (hunique : (k.present.map Sym.name).Nodup) (s : Sym N) :
    ((k.without s).present.map Sym.name).Nodup := by
  rw [Package.present_without]
  exact hunique.sublist (filter_sublist.map Sym.name)

omit [DecidableEq P] in
theorem shadowing_without (hshadowing : ∀ t ∈ k.shadowing, t ∈ k.present) :
    ∀ t ∈ (k.without s).shadowing, t ∈ (k.without s).present := by
  intro t ht
  rw [Package.present_without]
  rw [Package.without, mem_filter] at ht
  exact mem_filter.mpr ⟨hshadowing t ht.1, ht.2⟩

omit [DecidableEq P] in
theorem visible_without {packages : P → Package P N} {t : Sym N}
    (h : Visible packages (k.without s) t) : Visible packages k t := by
  rcases h with h | h
  · rw [Package.present_without] at h
    exact .inl (mem_filter.mp h).1
  · exact .inr h

omit [DecidableEq P] in
theorem Package.without_eq (hunique : (k.present.map Sym.name).Nodup) (s : Sym N) :
    (s ∉ k.present → { k with shadowing := k.shadowing.filter (· ≠ s) } = k.without s) ∧
    (s ∈ k.internal →
      { k with internal := nukeSymbol k.internal s, shadowing := k.shadowing.filter (· ≠ s) } =
        k.without s) ∧
    (s ∈ k.external →
      { k with external := nukeSymbol k.external s, shadowing := k.shadowing.filter (· ≠ s) } =
        k.without s) := by
  rw [Package.present, map_append, nodup_append] at hunique
  obtain ⟨hinternal, hexternal, hdisjoint⟩ := hunique
  have hapart : s ∈ k.internal → s ∉ k.external := by
    intro hi he
    exact hdisjoint _ (mem_map_of_mem hi) _ (mem_map_of_mem he) rfl
  refine ⟨fun hs => ?_, fun hs => ?_, fun hs => ?_⟩
  · rw [Package.without, filter_ne_of_notMem fun hi => hs (mem_append_left _ hi),
      filter_ne_of_notMem fun he => hs (mem_append_right _ he)]
  · rw [nukeSymbol_eq_filter hinternal hs, Package.without, filter_ne_of_notMem (hapart hs)]
  · rw [nukeSymbol_eq_filter hexternal hs, Package.without,
      filter_ne_of_notMem fun hi => hapart hi hs]

theorem unintern_spec (hunique : ((w.packages p).present.map Sym.name).Nodup)
    (h : w.unintern p s = some (b, w')) :
    w'.packages = update w.packages p ((w.packages p).without s) ∧
      w'.usedBy = w.usedBy ∧ (s ∈ (w.packages p).shadowing →
        (((w.packages p).tables.filterMap fun q =>
          w.findExternalSymbol q s.name).eraseDups).length ≤ 1) := by
  unfold World.unintern at h
  dsimp only at h
  split at h
  · cases h
  rename_i hconflict
  rw [← and_assoc]
  refine ⟨?_, fun hs => Nat.le_of_not_lt fun hlt => hconflict ⟨hs, hlt⟩⟩
  -- The shadowing symbols go first.
  obtain ⟨w1, hw1, husedBy, hpackages⟩ : ∃ w1 : World P N, (if s ∈ (w.packages p).shadowing then
      w.setShadowing p ((w.packages p).shadowing.filter (· ≠ s)) else w) = w1 ∧
        w1.usedBy = w.usedBy ∧
      w1.packages = update w.packages p
        { w.packages p with shadowing := (w.packages p).shadowing.filter (· ≠ s) } := by
    refine ⟨_, rfl, ?_, ?_⟩
    · split <;> rfl
    split
    · rfl
    · rename_i hs
      rw [filter_ne_of_notMem hs]
      exact (update_eq_self p w.packages).symm
  obtain ⟨found, w2, hfind, hfound, hsame⟩ := findSymbol_cases w1 p s.name
  rw [hw1, hfind] at h
  rw [hpackages, update_self] at hfound
  have husedBy2 : w2.usedBy = w.usedBy := hsame.usedBy.trans husedBy
  have hpackages2 := hsame.packages.trans hpackages
  obtain ⟨hnone, hinternal, hexternal⟩ := Package.without_eq hunique s
  -- If the symbol is not what was found, it is not present at all.
  have habsent : (∀ status, found = some (s, status) → status = .inherited) →
      w2.packages = update w.packages p ((w.packages p).without s) ∧ w2.usedBy = w.usedBy := by
    intro hne
    refine ⟨hpackages2.trans (congrArg _ (hnone fun hs => ?_)), husedBy2⟩
    obtain ⟨status, heq, hstatus⟩ := hfound.of_present hunique hs
    exact hstatus (hne status heq)
  have hnuked : ∀ k', (w2.setPackage p k').packages = update w.packages p k' := by
    intro k'
    show update w2.packages p k' = _
    rw [hpackages2, update_idem]
  match found, h with
  | none, h =>
    cases h
    exact habsent nofun
  | some (t, .inherited), h =>
    cases h
    refine habsent fun status heq => ?_
    cases heq
    rfl
  | some (t, .internal), h =>
    dsimp only at h
    split at h
    · rename_i hst
      subst hst
      cases h
      have hs : s ∈ (w.packages p).internal := by
        cases hfound with
        | internal hs _ => exact hs
      have hpk : (w2.nukeInternal p s).packages =
          update w.packages p ((w.packages p).without s) := by
        rw [World.nukeInternal, hnuked, hpackages2, update_self, ← hinternal hs]
      split
      · exact ⟨hpk, husedBy2⟩
      · exact ⟨hpk, husedBy2⟩
    · rename_i hst
      cases h
      exact habsent fun status heq => absurd (by cases heq; rfl) hst
  | some (t, .external), h =>
    dsimp only at h
    split at h
    · rename_i hst
      subst hst
      cases h
      have hs : s ∈ (w.packages p).external := by
        cases hfound with
        | external hs _ => exact hs
      have hpk : (w2.nukeExternal p s).packages =
          update w.packages p ((w.packages p).without s) := by
        rw [World.nukeExternal, hnuked, hpackages2, update_self, ← hexternal hs]
      split
      · exact ⟨hpk, husedBy2⟩
      · exact ⟨hpk, husedBy2⟩
    · rename_i hst
      cases h
      exact habsent fun status heq => absurd (by cases heq; rfl) hst

theorem eq_of_length_le_one (h : xs.length ≤ 1) (hx : x ∈ xs) (hy : y ∈ xs) : x = y := by
  match xs, h with
  | [z], _ => rw [mem_singleton.mp hx, mem_singleton.mp hy]

theorem Invariant.unintern (h : Invariant reg w) (hrun : w.unintern p s = some (b, w')) :
    Invariant reg w' := by
  have hunique := h.consistent.unique p
  obtain ⟨hpackages, husedBy, hcset⟩ := unintern_spec hunique hrun
  refine h.update_of_external hpackages husedBy rfl (nodup_without hunique s)
    (shadowing_without (h.consistent.shadowing p)) (fun t ht => (mem_filter.mp ht).1) ?_
  intro name
  by_cases hname : s ∈ (w.packages p).shadowing ∧ s.name = name
  · obtain ⟨hs, rfl⟩ := hname
    have hmem : ∀ t, Visible w.packages ((w.packages p).without s) t → t.name = s.name →
        t ∈ ((w.packages p).tables.filterMap fun q => w.findExternalSymbol q s.name).eraseDups := by
      intro t ht htname
      rcases ht with ht | ⟨q, hq, ht⟩
      · rw [Package.present_without, mem_filter] at ht
        have heq := Package.eq_of_present hunique ht.1 (h.consistent.shadowing p s hs) htname
        exact absurd heq (by simpa using ht.2)
      rw [mem_eraseDups, mem_filterMap]
      refine ⟨q, hq, ?_⟩
      have huniqueq := h.consistent.unique q
      rw [Package.present, map_append, nodup_append] at huniqueq
      rw [World.findExternalSymbol, ← htname]
      exact lookup_eq_some huniqueq.2.1 ht
    exact .inr fun t u ht hu htname huname =>
      eq_of_length_le_one (hcset hs) (hmem t ht htname) (hmem u hu huname)
  · rcases h.consistent.agrees p name with ⟨t, ht, htname⟩ | hone
    · refine .inl ⟨t, mem_filter.mpr ⟨ht, ?_⟩, htname⟩
      have hts : t ≠ s := by
        rintro rfl
        exact hname ⟨ht, htname⟩
      simpa using hts
    · exact .inr fun t u ht hu => hone t u (visible_without ht) (visible_without hu)

theorem mem_pushnew [DecidableEq α] : y ∈ pushnew x xs ↔ y = x ∨ y ∈ xs := by
  unfold pushnew
  split
  · rename_i hmem
    refine ⟨.inr, fun hy => ?_⟩
    rcases hy with rfl | hy
    · exact hmem
    · exact hy
  · exact mem_cons

theorem Invariant.setShadowing (h : Invariant reg w) (hs : s ∈ (w.packages p).present) :
    Invariant reg (w.setShadowing p (pushnew s (w.packages p).shadowing)) := by
  refine h.update_of_external rfl rfl rfl (h.consistent.unique p) (fun t ht => ?_)
    (fun t ht => ht) ?_
  · rcases mem_pushnew.mp ht with rfl | ht
    · exact hs
    · exact h.consistent.shadowing p t ht
  · exact (h.consistent.agrees p).mono (fun t ht => ht) fun t ht => mem_pushnew.mpr (.inr ht)

/-- The package `k₀` is the package `k` where the name of `s` has been made free. -/
structure Freed (packages : P → Package P N) (k k₀ : Package P N) (s : Sym N) : Prop where
  tables : k₀.tables = k.tables
  unique : (k₀.present.map Sym.name).Nodup
  shadowing : ∀ t ∈ k₀.shadowing, t ∈ k₀.present
  external : ∀ t ∈ k₀.external, t ∈ k.external
  visible : ∀ t, Visible packages k₀ t → Visible packages k t
  kept : ∀ t ∈ k.shadowing, t.name ≠ s.name → t ∈ k₀.shadowing
  absent : ∀ t ∈ k₀.present, t.name ≠ s.name

theorem Invariant.shadowWith (h : Invariant reg w) (hfreed : Freed w.packages (w.packages p) k₀ s)
    (hpackages : w'.packages = update w.packages p
      { k₀ with internal := s :: k₀.internal, shadowing := pushnew s k₀.shadowing })
    (husedBy : w'.usedBy = w.usedBy) : Invariant reg w' := by
  refine h.update_of_external hpackages husedBy hfreed.tables
    (nodup_addInternal hfreed.unique hfreed.absent) (fun t ht => ?_) hfreed.external ?_
  · rcases mem_pushnew.mp ht with rfl | ht
    · exact mem_cons_self
    · exact mem_cons_of_mem _ (hfreed.shadowing t ht)
  refine (h.consistent.agrees p).shadow (mem_pushnew.mpr (.inl rfl)) (fun t ht hname => ?_)
    fun t ht hname =>
    mem_pushnew.mpr (.inr (hfreed.kept t ht hname))
  have ht' : Visible w.packages { k₀ with internal := s :: k₀.internal } t := ht
  rcases visible_addInternal ht' with hvisible | rfl
  · exact hfreed.visible t hvisible
  · exact absurd rfl hname

omit [DecidableEq P] [DecidableEq N] in
theorem Invariant.freed (h : Invariant reg w)
    (habsent : ∀ t ∈ (w.packages p).present, t.name ≠ s.name) :
    Freed w.packages (w.packages p) (w.packages p) s :=
  ⟨rfl, h.consistent.unique p, h.consistent.shadowing p, fun _ ht => ht, fun _ ht => ht,
    fun _ ht _ => ht, habsent⟩

omit [DecidableEq P] in
theorem Invariant.freed_without (h : Invariant reg w) {t : Sym N} (ht : t ∈ (w.packages p).present)
    (hname : t.name = s.name) : Freed w.packages (w.packages p) ((w.packages p).without t) s := by
  have hunique := h.consistent.unique p
  refine ⟨rfl, nodup_without hunique t, shadowing_without (h.consistent.shadowing p),
    fun u hu => (mem_filter.mp hu).1,
    fun u => visible_without, fun u hu huname => mem_filter.mpr ⟨hu, ?_⟩, fun u hu huname => ?_⟩
  · have hut : u ≠ t := by
      rintro rfl
      exact huname hname
    simpa using hut
  · rw [Package.present_without, mem_filter] at hu
    have heq := Package.eq_of_present hunique hu.1 ht (huname.trans hname.symm)
    exact absurd heq (by simpa using hu.2)

theorem setShadowing_addInternal (hpackages : w.packages p = k₀) (s : Sym N) :
    ((w.addInternal p s).setShadowing p
      (pushnew s ((w.addInternal p s).packages p).shadowing)).packages
      = update w.packages p
        { k₀ with internal := s :: k₀.internal, shadowing := pushnew s k₀.shadowing } := by
  subst hpackages
  show update (update w.packages p _) p _ = _
  rw [update_idem]
  have hself : (w.addInternal p s).packages p =
      { w.packages p with internal := s :: (w.packages p).internal } :=
    update_self _ _ _
  rw [hself]

theorem Invariant.shadow1 (h : Invariant reg w) (name : N) : Invariant reg (w.shadow1 p name) := by
  unfold World.shadow1
  obtain ⟨found, w1, hfind, hfound, hsame⟩ := findSymbol_cases w p name
  rw [hfind]
  have hinv := h.of_same hsame
  -- A new symbol, where none is present.
  have hnew : (∀ t ∈ (w.packages p).present, t.name ≠ name) → Invariant reg
      (((w1.makeSymbol p name).2.addInternal p (w1.makeSymbol p name).1).setShadowing p
        (pushnew (w1.makeSymbol p name).1
          (((w1.makeSymbol p name).2.addInternal p (w1.makeSymbol p name).1).packages
            p).shadowing)) := by
    intro habsent
    have hinv2 : Invariant reg (w1.makeSymbol p name).2 := hinv.of_same ⟨rfl, rfl⟩
    refine hinv2.shadowWith (hinv2.freed ?_) (setShadowing_addInternal rfl _) rfl
    show ∀ t ∈ (w1.packages p).present, _
    rw [hsame.packages]
    exact habsent
  have hpresent : ∀ t, t ∈ (w.packages p).present →
      Invariant reg (w1.setShadowing p (pushnew t (w1.packages p).shadowing)) := by
    intro t ht
    refine hinv.setShadowing ?_
    rw [hsame.packages]
    exact ht
  match found with
  | some (t, .internal) => exact hpresent t (hfound.present (by simp))
  | some (t, .external) => exact hpresent t (hfound.present (by simp))
  | some (t, .inherited) => exact hnew hfound.absent_of_inherited
  | none => exact hnew hfound.absent_of_none

theorem Invariant.shadow (h : Invariant reg w) (names : List N) :
    Invariant reg (w.shadow p names) := by
  induction names generalizing w with
  | nil => exact h
  | cons name names ih => exact ih (h.shadow1 name)

theorem Invariant.shadowingImport1 (h : Invariant reg w) (hrun : w.shadowingImport1 p s = some w') :
    Invariant reg w' := by
  unfold World.shadowingImport1 at hrun
  obtain ⟨found, w1, hfind, hfound, hsame⟩ := findSymbol_cases w p s.name
  rw [hfind] at hrun
  have hinv := h.of_same hsame
  have hnew : (∀ t ∈ (w.packages p).present, t.name ≠ s.name) → Invariant reg
      ((w1.addInternal p s).setShadowing p
        (pushnew s ((w1.addInternal p s).packages p).shadowing)) := by
    intro habsent
    refine hinv.shadowWith (hinv.freed ?_) (setShadowing_addInternal rfl _) rfl
    rw [hsame.packages]
    exact habsent
  -- The present symbol of the name, of whichever table, is replaced.
  have hreplace : ∀ t, t ∈ (w.packages p).present → t.name = s.name → ∀ b w2,
      (w1.setShadowing p ((w1.packages p).shadowing.filter (· ≠ t))).unintern p t = some (b, w2) →
      Invariant reg ((w2.addInternal p s).setShadowing p
        (pushnew s ((w2.addInternal p s).packages p).shadowing)) := by
    intro t ht htname b w2 hunintern
    have hself : (w1.setShadowing p ((w1.packages p).shadowing.filter (· ≠ t))).packages p
        = { w1.packages p with shadowing := (w1.packages p).shadowing.filter (· ≠ t) } :=
          update_self _ _ _
    have hunique :
        (((w1.setShadowing p ((w1.packages p).shadowing.filter (· ≠ t))).packages p).present.map
          Sym.name).Nodup := by
      rw [hself]
      exact hinv.consistent.unique p
    obtain ⟨hpackages, husedBy, -⟩ := unintern_spec hunique hunintern
    have hwithout : w2.packages = update w1.packages p ((w1.packages p).without t) := by
      rw [hpackages, hself]
      show update (update w1.packages p _) p _ = _
      rw [update_idem, Package.without, Package.without]
      rw [List.filter_filter]
      simp only [Bool.and_self]
    have hpackage : w2.packages p = (w1.packages p).without t := by rw [hwithout, update_self]
    have hfreed : Freed w1.packages (w1.packages p) ((w1.packages p).without t) s := by
      refine hinv.freed_without ?_ htname
      rw [hsame.packages]
      exact ht
    refine hinv.shadowWith hfreed ?_ husedBy
    rw [setShadowing_addInternal hpackage s, hwithout, update_idem]
  have hold : ∀ t status, Found w.packages (w.packages p) s.name (some (t, status)) →
    status ≠ .inherited →
      (if t = s then some (w1.setShadowing p (pushnew s (w1.packages p).shadowing)) else
        ((((w1.setShadowing p ((w1.packages p).shadowing.filter (· ≠ t))).unintern p t).bind
          fun r => some r.2).map
          fun w => w.addInternal p s).bind fun w =>
            some (w.setShadowing p (pushnew s (w.packages p).shadowing))) = some w' →
      Invariant reg w' := by
    intro t status hfound hstatus hrun
    have ht := hfound.present hstatus
    split at hrun
    · rename_i hts
      subst hts
      cases hrun
      refine hinv.setShadowing ?_
      rw [hsame.packages]
      exact ht
    · rw [bind_eq_some_iff] at hrun
      obtain ⟨w3, hw3, hrun⟩ := hrun
      obtain ⟨w2, hw2, rfl⟩ := map_eq_some_iff.1 hw3
      obtain ⟨⟨b, w2'⟩, hunintern, hw2⟩ := bind_eq_some_iff.1 hw2
      cases hw2
      cases hrun
      exact hreplace t ht hfound.visible.2 b w2' hunintern
  match found, hrun with
  | some (t, .internal), hrun =>
    exact hold t .internal hfound (by simp) hrun
  | some (t, .external), hrun =>
    exact hold t .external hfound (by simp) hrun
  | some (t, .inherited), hrun =>
    cases hrun
    exact hnew hfound.absent_of_inherited
  | none, hrun =>
    cases hrun
    exact hnew hfound.absent_of_none

theorem Invariant.shadowingImport : ∀ {symbols : List (Sym N)} {w : World P N}, Invariant reg w →
    World.shadowingImport p w symbols = some w' → Invariant reg w'
  | [], w, h, hrun => by
    cases hrun
    exact h
  | s :: symbols, w, h, hrun => by
    obtain ⟨w1, hw1, hrun⟩ := bind_eq_some_iff.1 hrun
    exact Invariant.shadowingImport (h.shadowingImport1 hw1) hrun

end Shadow

/-! ## Exporting and unexporting -/

section Export

variable [DecidableEq P] [DecidableEq N] {reg : Registry P} {w w' : World P N} {p : P}
    {k : Package P N} {s : Sym N}

omit [DecidableEq P] in
theorem perm_cons_filter_ne {xs : List (Sym N)} (hs : s ∈ xs) (hunique : xs.Nodup) :
    (s :: xs.filter (· ≠ s)).Perm xs := by
  have hperm := perm_cons_erase hs
  rw [hunique.erase_eq_filter s] at hperm
  have hfilter : xs.filter (· != s) = xs.filter (· ≠ s) := by
    refine filter_congr fun t _ => ?_
    rw [decide_not]
    rfl
  rw [hfilter] at hperm
  exact hperm.symm

omit [DecidableEq P] [DecidableEq N] in
theorem nodup_tables (hunique : (k.present.map Sym.name).Nodup) :
    (k.internal.map Sym.name).Nodup ∧ (k.external.map Sym.name).Nodup := by
  rw [Package.present, map_append, nodup_append] at hunique
  exact ⟨hunique.1, hunique.2.1⟩

theorem Invariant.unexport1 (h : Invariant reg w) (hs : s ∈ (w.packages p).external) :
    Invariant reg ((w.addInternal p s).nukeExternal p s) ∧
    ((w.addInternal p s).nukeExternal p s).packages
      = update w.packages p { w.packages p with
          internal := s :: (w.packages p).internal, external :=
  (w.packages p).external.filter (· ≠ s) } := by
  have hunique := h.consistent.unique p
  have htables := nodup_tables hunique
  have hpackages : ((w.addInternal p s).nukeExternal p s).packages =
    update w.packages p { w.packages p with
      internal := s :: (w.packages p).internal, external :=
        (w.packages p).external.filter (· ≠ s) } := by
    have hself : (w.addInternal p s).packages p =
        { w.packages p with internal := s :: (w.packages p).internal } :=
      update_self _ _ _
    show update (update w.packages p _) p _ = _
    rw [update_idem, hself]
    rw [nukeSymbol_eq_filter htables.2 hs]
  have hperm : (s :: (w.packages p).internal ++ (w.packages p).external.filter (· ≠ s)).Perm
      (w.packages p).present :=
    perm_middle.symm.trans ((perm_cons_filter_ne hs htables.2.of_map).append_left _)
  refine ⟨h.update_of_external hpackages rfl rfl ?_ (fun t ht => ?_) (fun t ht =>
    (mem_filter.mp ht).1) ?_, hpackages⟩
  · exact ((hperm.map Sym.name).nodup_iff).mpr hunique
  · exact hperm.mem_iff.mpr (h.consistent.shadowing p t ht)
  refine (h.consistent.agrees p).mono (fun t ht => ?_) fun t ht => ht
  rcases ht with ht | ht
  · exact .inl (hperm.mem_iff.mp ht)
  · exact .inr ht

theorem unexportCheck_spec :
    ∀ {symbols : List (Sym N)} {w w' : World P N} {syms syms' : List (Sym N)},
    (∀ s ∈ syms, s ∈ (w.packages p).external) → syms.Nodup →
    World.unexportCheck p w syms symbols = some (syms', w') →
    SameGraph w w' ∧ (∀ s ∈ syms', s ∈ (w.packages p).external) ∧ syms'.Nodup
  | [], w, w', syms, syms', hsyms, hunique, h => by
    cases h
    exact ⟨.refl w, hsyms, hunique⟩
  | s :: symbols, w, w', syms, syms', hsyms, hunique, h => by
    unfold World.unexportCheck at h
    obtain ⟨found, w1, hfind, hfound, hsame⟩ := findSymbol_cases w p s.name
    rw [hfind] at h
    cases found with
    | none => cases h
    | some found =>
      obtain ⟨t, status⟩ := found
      dsimp only at h
      split at h
      · rename_i hts
        subst hts
        have hnext : (∀ u ∈ (if status = .external then pushnew t syms else syms),
          u ∈ (w1.packages p).external) ∧
            (if status = .external then pushnew t syms else syms).Nodup := by
          rw [hsame.packages]
          split
          · rename_i hstatus
            subst hstatus
            refine ⟨fun u hu => ?_, ?_⟩
            · rcases mem_pushnew.mp hu with rfl | hu
              · cases hfound with
                | external ht _ => exact ht
              · exact hsyms u hu
            unfold pushnew
            split
            · exact hunique
            · rename_i hmem
              exact nodup_cons.mpr ⟨hmem, hunique⟩
          · exact ⟨hsyms, hunique⟩
        obtain ⟨hsame', hsyms', hunique'⟩ := unexportCheck_spec hnext.1 hnext.2 h
        exact ⟨hsame.trans hsame', hsame.packages ▸ hsyms', hunique'⟩
      · cases h

theorem Invariant.unexport (h : Invariant reg w) (hrun : w.unexport p symbols = some w') :
    Invariant reg w' := by
  unfold World.unexport at hrun
  rw [bind_eq_bind, bind_eq_some_iff] at hrun
  obtain ⟨⟨syms, w1⟩, hcheck, hrun⟩ := hrun
  cases hrun
  obtain ⟨hsame, hsyms, hunique⟩ := unexportCheck_spec (by simp) nodup_nil hcheck
  have hinv := h.of_same hsame
  rw [← hsame.packages] at hsyms
  clear hcheck hsame h
  show Invariant reg (syms.foldl (fun w sym => (w.addInternal p sym).nukeExternal p sym) w1)
  induction syms generalizing w1 with
  | nil => exact hinv
  | cons s syms ih =>
    obtain ⟨hinv', hpackages⟩ := hinv.unexport1 (hsyms s mem_cons_self)
    rw [nodup_cons] at hunique
    refine ih _ (fun t ht => ?_) hunique.2 hinv'
    have hts : t ≠ s := by
      rintro rfl
      exact hunique.1 ht
    rw [hpackages, update_self]
    exact mem_filter.mpr ⟨hsyms t (mem_cons_of_mem _ ht), by simpa using hts⟩

/-- The symbol may become external, seen from another package that uses this one. -/
def Fine (packages : P → Package P N) (user : P) (s : Sym N) : Prop :=
  (∃ s' ∈ (packages user).shadowing, s'.name = s.name) ∨
    ∀ t, Visible packages (packages user) t → t.name = s.name → t = s

structure Exportable (w : World P N) (p : P) (s : Sym N) : Prop where
  internal : s ∈ (w.packages p).internal
  fine : ∀ user, user ≠ p → p ∈ (w.packages user).tables → Fine w.packages user s

theorem export1_packages (h : Invariant reg w) (hs : s ∈ (w.packages p).internal) :
    ((w.addExternal p s).nukeInternal p s).packages = update w.packages p { w.packages p with
      internal := (w.packages p).internal.filter (· ≠ s), external :=
  s :: (w.packages p).external } := by
  have hself : (w.addExternal p s).packages p =
      { w.packages p with external := s :: (w.packages p).external } :=
    update_self _ _ _
  show update (update w.packages p _) p _ = _
  rw [update_idem, hself]
  rw [nukeSymbol_eq_filter (nodup_tables (h.consistent.unique p)).1 hs]

theorem visible_export1 {packages : P → Package P N} {k : Package P N} {t : Sym N}
    (h : Visible (update packages p { packages p with
      internal := (packages p).internal.filter (· ≠ s), external :=
  s :: (packages p).external }) k t) :
    Visible packages k t ∨ t = s := by
  rcases h with h | ⟨q, hq, h⟩
  · exact .inl (.inl h)
  by_cases hqp : q = p
  · rw [hqp, update_self] at h
    rcases mem_cons.mp h with heq | h
    · exact .inr heq
    · exact .inl (.inr ⟨q, hq, hqp ▸ h⟩)
  · rw [update_of_ne hqp] at h
    exact .inl (.inr ⟨q, hq, h⟩)

theorem Invariant.export1 (h : Invariant reg w) (hs : Exportable w p s) :
    Invariant reg ((w.addExternal p s).nukeInternal p s) := by
  have hpackages := export1_packages h hs.internal
  have hunique := h.consistent.unique p
  have htables := nodup_tables hunique
  have hperm : ((w.packages p).internal.filter (· ≠ s) ++ s :: (w.packages p).external).Perm
      (w.packages p).present :=
    perm_middle.trans ((perm_cons_filter_ne hs.internal htables.1.of_map).append_right _)
  refine ⟨?_, h.coherent.update hpackages rfl rfl⟩
  rw [hpackages]
  refine h.consistent.update ?_ (fun t ht => ?_) (h.consistent.keyword p) ?_ fun r hr huse => ?_
  · exact ((hperm.map Sym.name).nodup_iff).mpr hunique
  · exact hperm.mem_iff.mpr (h.consistent.shadowing p t ht)
  · refine (h.consistent.agrees p).mono (fun t ht => ?_) fun t ht => ht
    rcases visible_export1 ht with ht | rfl
    · rcases ht with ht | ht
      · exact .inl (hperm.mem_iff.mp ht)
      · exact .inr ht
    · exact visible_of_internal hs.internal
  · exact (h.consistent.agrees r).extend (fun t => visible_export1) (hs.fine r hr huse) fun t ht =>
      ht

theorem Exportable.export1 {t : Sym N} (h : Invariant reg w) (hs : Exportable w p s)
    (ht : Exportable w p t) (hts : t ≠ s) :
    Exportable ((w.addExternal p s).nukeInternal p s) p t := by
  have hpackages := export1_packages h hs.internal
  have hname : t.name ≠ s.name := by
    intro heq
    exact hts (Package.eq_of_present (h.consistent.unique p) (mem_append_left _ ht.internal)
      (mem_append_left _ hs.internal) heq)
  refine ⟨?_, fun user huser huse => ?_⟩
  · rw [hpackages, update_self]
    exact mem_filter.mpr ⟨ht.internal, by simpa using hts⟩
  rw [hpackages, update_of_ne huser] at huse
  unfold Fine
  rw [hpackages, update_of_ne huser]
  rcases ht.fine user huser huse with hshadow | hone
  · exact .inl hshadow
  refine .inr fun u hu huname => ?_
  rcases visible_export1 hu with hu | rfl
  · exact hone u hu huname
  · exact absurd huname.symm hname

theorem findSymbol_of_present (h : Invariant reg w) (hs : s ∈ (w.packages p).present) :
    ∃ status w1, w.findSymbol p s.name = (some (s, status), w1) ∧ SameGraph w w1 := by
  obtain ⟨found, w1, hfind, hfound, hsame⟩ := findSymbol_cases w p s.name
  obtain ⟨status, rfl, -⟩ := hfound.of_present (h.consistent.unique p) hs
  exact ⟨status, w1, hfind, hsame⟩

omit [DecidableEq P] [DecidableEq N] in
theorem Exportable.of_same (h : Exportable w p s) (hsame : SameGraph w w') : Exportable w' p s := by
  refine ⟨?_, ?_⟩
  · rw [hsame.packages]
    exact h.internal
  · rw [hsame.packages]
    exact h.fine

theorem Invariant.exportSymbols : ∀ {syms : List (Sym N)} {w : World P N},
    Invariant reg w → syms.Nodup →
    (∀ s ∈ syms, Exportable w p s) → Invariant reg (World.exportSymbols p w syms)
  | [], w, h, _, _ => h
  | s :: syms, w, h, hunique, hexportable => by
    rw [nodup_cons] at hunique
    have hs := hexportable s mem_cons_self
    obtain ⟨status, w1, hfind, hsame⟩ := findSymbol_of_present h (mem_append_left _ hs.internal)
    have h1 := h.of_same hsame
    unfold World.exportSymbols
    rw [hfind]
    dsimp only
    rw [if_pos rfl]
    refine Invariant.exportSymbols (h1.export1 (hs.of_same hsame)) hunique.2 fun t ht => ?_
    have hts : t ≠ s := by
      rintro rfl
      exact hunique.1 ht
    exact Exportable.export1 h1 (hs.of_same hsame)
      ((hexportable t (mem_cons_of_mem _ ht)).of_same hsame) hts

theorem exportConflicts_spec (h : Invariant reg w) : ∀ {users : List P} {w1 w' : World P N},
    SameGraph w w1 →
    w1.exportConflicts s users = some w' → SameGraph w w' ∧ ∀ user ∈ users, Fine w.packages user s
  | [], w1, w', hsame, hrun => by
    cases hrun
    exact ⟨hsame, by simp⟩
  | user :: users, w1, w', hsame, hrun => by
    unfold World.exportConflicts at hrun
    obtain ⟨found, w2, hfind, hfound, hsame'⟩ := findSymbol_cases w1 user s.name
    rw [hfind] at hrun
    rw [hsame.packages] at hfound
    have hsame2 := hsame.trans hsame'
    cases found with
    | none =>
      obtain ⟨hsame3, hfine⟩ := exportConflicts_spec h hsame2 hrun
      exact ⟨hsame3,
        forall_mem_cons.mpr ⟨.inr fun t ht htname => absurd htname (hfound.ne_of_none ht), hfine⟩⟩
    | some found =>
      obtain ⟨t, status⟩ := found
      dsimp only at hrun
      split at hrun
      · rename_i hok
        obtain ⟨hsame3, hfine⟩ := exportConflicts_spec h hsame2 hrun
        refine ⟨hsame3, forall_mem_cons.mpr ⟨?_, hfine⟩⟩
        by_cases hshadow : ∃ s' ∈ (w.packages user).shadowing, s'.name = s.name
        · exact .inl hshadow
        push Not at hshadow
        rcases hok with rfl | hmem
        · exact .inr fun v hv hvname =>
            hfound.eq_of_visible (h.consistent.agrees user) hshadow hv hvname
        · rw [hsame2.packages] at hmem
          exact absurd hfound.visible.2 (hshadow t hmem)
      · cases hrun

theorem exportAllConflicts_spec (h : Invariant reg w) : ∀ {syms : List (Sym N)} {w1 w' : World P N},
    SameGraph w w1 → World.exportAllConflicts users w1 syms = some w' →
    SameGraph w w' ∧ ∀ s ∈ syms, ∀ user ∈ users, Fine w.packages user s
  | [], w1, w', hsame, hrun => by
    cases hrun
    exact ⟨hsame, by simp⟩
  | s :: syms, w1, w', hsame, hrun => by
    obtain ⟨w2, hw2, hrun⟩ := bind_eq_some_iff.1 hrun
    obtain ⟨hsame2, hfine⟩ := exportConflicts_spec h hsame hw2
    obtain ⟨hsame3, hall⟩ := exportAllConflicts_spec h hsame2 hrun
    exact ⟨hsame3, forall_mem_cons.mpr ⟨hfine, hall⟩⟩

theorem exportImports_spec :
    ∀ {syms : List (Sym N)} {w w' : World P N} {imports imports' : List (Sym N)},
    World.exportImports p w imports syms = some (imports', w') →
    SameGraph w w' ∧ (∀ s ∈ imports, s ∈ imports') ∧ ∀ s ∈ syms,
      s ∈ (w.packages p).present ∨ s ∈ imports'
  | [], w, w', imports, imports', h => by
    cases h
    exact ⟨.refl w, fun s hs => hs, by simp⟩
  | s :: syms, w, w', imports, imports', h => by
    unfold World.exportImports at h
    obtain ⟨found, w1, hfind, hfound, hsame⟩ := findSymbol_cases w p s.name
    rw [hfind] at h
    cases found with
    | none => cases h
    | some found =>
      obtain ⟨t, status⟩ := found
      dsimp only at h
      split at h
      · rename_i hts
        subst hts
        obtain ⟨hsame', hsub, hall⟩ := exportImports_spec h
        have hkept : ∀ u ∈ imports, u ∈ imports' := by
          intro u hu
          refine hsub u ?_
          split
          · exact mem_cons_of_mem _ hu
          · exact hu
        refine ⟨hsame.trans hsame', hkept, forall_mem_cons.mpr ⟨?_, hsame.packages ▸ hall⟩⟩
        by_cases hstatus : status = .inherited
        · refine .inr (hsub t ?_)
          rw [if_pos hstatus]
          exact mem_cons_self
        · exact .inl (hfound.present hstatus)
      · cases h

omit [DecidableEq P] in
theorem foldl_pushnew : ∀ (xs acc : List (Sym N)), acc.Nodup →
    (xs.foldl (fun syms s => pushnew s syms) acc).Nodup ∧
      ∀ s ∈ xs.foldl (fun syms s => pushnew s syms) acc, s ∈ xs ∨ s ∈ acc
  | [], acc, h => ⟨h, fun s hs => .inr hs⟩
  | x :: xs, acc, h => by
    have hnodup : (pushnew x acc).Nodup := by
      unfold pushnew
      split
      · exact h
      · rename_i hmem
        exact nodup_cons.mpr ⟨hmem, h⟩
    obtain ⟨hnodup', hmem⟩ := foldl_pushnew xs (pushnew x acc) hnodup
    refine ⟨hnodup', fun s hs => ?_⟩
    rcases hmem s hs with hs | hs
    · exact .inl (mem_cons_of_mem _ hs)
    · rcases mem_pushnew.mp hs with rfl | hs
      · exact .inl mem_cons_self
      · exact .inr hs

omit [DecidableEq N] in
theorem usedByList_spec (h : Invariant reg w) (hrun : w.usedByList p reg = (users, w')) :
    Invariant reg w' ∧ w'.packages = w.packages ∧ ∀ user, user ∈ users ↔
      p ∈ (w.packages user).tables := by
  unfold World.usedByList at hrun
  split at hrun
  · rename_i list hlist
    cases hrun
    exact ⟨h, rfl, h.coherent p _ hlist⟩
  cases hrun
  have husers :
    ∀ user, user ∈ (reg.packages.filter fun user => p ∈ (w.packages user).tables).reverse ↔
      p ∈ (w.packages user).tables := by
    intro user
    simp [mem_filter, reg.complete user]
  refine ⟨⟨h.consistent, fun q list hlist => ?_⟩, rfl, husers⟩
  by_cases hqp : q = p
  · subst hqp
    dsimp only at hlist
    rw [update_self] at hlist
    cases hlist
    exact husers
  · dsimp only at hlist
    rw [update_of_ne hqp] at hlist
    exact h.coherent q list hlist

theorem Invariant.export (h : Invariant reg w) (hrun : w.export p reg symbols = some w') :
    Invariant reg w' := by
  unfold World.export at hrun
  obtain ⟨hunique, hmem⟩ := foldl_pushnew
    (symbols.filter fun s => w.findExternalSymbol p s.name ≠ some s) [] nodup_nil
  generalize (symbols.filter fun s => w.findExternalSymbol p s.name ≠ some s).foldl
    (fun syms s => pushnew s syms) [] = syms at hunique hmem hrun
  dsimp only at hrun
  generalize husersEq : w.usedByList p reg = r at hrun
  obtain ⟨users, w1⟩ := r
  obtain ⟨h1, hpackages1, husers⟩ := usedByList_spec h husersEq
  obtain ⟨w2, hconflicts, hrun⟩ := bind_eq_some_iff.1 hrun
  obtain ⟨⟨imports, w3⟩, himports, hrun⟩ := bind_eq_some_iff.1 hrun
  obtain ⟨w4, himport, hrun⟩ := bind_eq_some_iff.1 hrun
  cases hrun
  obtain ⟨hsame2, hfine⟩ := exportAllConflicts_spec h1 (.refl w1) hconflicts
  obtain ⟨hsame3, -, hpresent⟩ := exportImports_spec himports
  obtain ⟨h4, internal, hpackages4, hold, himported⟩ :=
    ((h1.of_same hsame2).of_same hsame3).import_spec himport
  have hpackages3 : w3.packages = w.packages :=
    (hsame3.packages.trans hsame2.packages).trans hpackages1
  rw [hpackages3] at hpackages4 hold himported
  rw [hsame2.packages, hpackages1] at hpresent
  -- Symbols that are external already are not in the list.
  have hexternal : ∀ s ∈ syms, s ∉ (w.packages p).external := by
    intro s hs hexternal
    rcases hmem s hs with hs | hs
    · have hne := (mem_filter.mp hs).2
      rw [World.findExternalSymbol,
        lookup_eq_some (nodup_tables (h.consistent.unique p)).2 hexternal] at hne
      simp at hne
    · exact absurd hs (by simp)
  refine Invariant.exportSymbols h4 hunique fun s hs => ⟨?_, fun user huser huse => ?_⟩
  · rw [hpackages4, update_self]
    rcases hpresent s hs with hs' | hs'
    · rcases mem_append.mp hs' with hinternal | hs'
      · exact hold s hinternal
      · exact absurd hs' (hexternal s hs)
    · rcases himported s hs' with hinternal | hs'
      · exact hinternal
      · exact absurd hs' (hexternal s hs)
  · rw [hpackages4, update_of_ne huser] at huse
    have hok := hfine s hs user ((husers user).mpr huse)
    rw [hpackages1] at hok
    unfold Fine
    rw [hpackages4, update_of_ne huser]
    rcases hok with hshadow | hone
    · exact .inl hshadow
    · exact .inr fun t ht htname => hone t (visible_of_internals ht) htname

end Export

/-! ## Using and unusing packages -/

section Use

variable [DecidableEq P] [DecidableEq N] {reg : Registry P} {w w' : World P N} {p : P}

theorem useConflicts_spec (h : Invariant reg w) :
    ∀ {groups : List (N × List (Sym N))} {w1 w' : World P N}, SameGraph w w1 →
    World.useConflicts p (w.packages p).shadowing w1 groups = some w' → SameGraph w w' ∧
      ∀ group ∈ groups, (∃ s ∈ (w.packages p).shadowing, s.name = group.1) ∨
        ∀ s t, (s ∈ group.2 ∨ Visible w.packages (w.packages p) s ∧ s.name = group.1) →
          (t ∈ group.2 ∨ Visible w.packages (w.packages p) t ∧ t.name = group.1) → s = t
  | [], w1, w', hsame, hrun => by
    cases hrun
    exact ⟨hsame, by simp⟩
  | (name, group) :: groups, w1, w', hsame, hrun => by
    unfold World.useConflicts at hrun
    obtain ⟨found, w2, hfind, hfound, hsame'⟩ := findSymbol_cases w1 p name
    rw [hfind] at hrun
    rw [hsame.packages] at hfound
    have hsame2 := hsame.trans hsame'
    cases found with
    | none =>
      dsimp only at hrun
      split at hrun
      · cases hrun
      rename_i hlen
      obtain ⟨hsame3, hall⟩ := useConflicts_spec h hsame2 hrun
      refine ⟨hsame3, forall_mem_cons.mpr ⟨.inr fun s t hs ht => ?_, hall⟩⟩
      rcases hs with hs | ⟨hs, hsname⟩
      · rcases ht with ht | ⟨ht, htname⟩
        · exact eq_of_length_le_one (Nat.le_of_not_lt hlen) hs ht
        · exact absurd htname (hfound.ne_of_none ht)
      · exact absurd hsname (hfound.ne_of_none hs)
    | some found =>
      obtain ⟨u, status⟩ := found
      dsimp only at hrun
      split at hrun
      · rename_i hok
        obtain ⟨hsame3, hall⟩ := useConflicts_spec h hsame2 hrun
        refine ⟨hsame3, forall_mem_cons.mpr ⟨?_, hall⟩⟩
        by_cases hshadow : ∃ s ∈ (w.packages p).shadowing, s.name = name
        · exact .inl hshadow
        push Not at hshadow
        rcases hok with hgroup | hmem
        · have honly : ∀ s, (s ∈ group ∨ Visible w.packages (w.packages p) s ∧ s.name = name) →
              s = u := by
            intro s hs
            rcases hs with hs | ⟨hs, hsname⟩
            · rw [hgroup] at hs
              exact mem_singleton.mp hs
            · exact hfound.eq_of_visible (h.consistent.agrees p) hshadow hs hsname
          exact .inr fun s t hs ht => (honly s hs).trans (honly t ht).symm
        · exact absurd hfound.visible.2 (hshadow u hmem)
      · cases hrun

theorem Invariant.usePackage (h : Invariant reg w) {packagesToUse : List P}
    (hkeyword : reg.keyword ∉ packagesToUse)
    (hrun : w.usePackage p reg packagesToUse = some w') : Invariant reg w' := by
  unfold World.usePackage at hrun
  split at hrun
  · cases hrun
  rw [if_neg (by simp)] at hrun
  obtain ⟨w1, hconflicts, hrun⟩ := bind_eq_some_iff.1 hrun
  cases hrun
  have hnew : ∀ q, q ∈ packagesToUse.eraseDups.filter (fun q => q ∉ (w.packages p).tables) →
      q ∈ packagesToUse := by
    intro q hq
    exact mem_eraseDups.mp (mem_filter.mp hq).1
  generalize packagesToUse.eraseDups.filter (fun q => q ∉ (w.packages p).tables) =
    packages at hconflicts hnew
  obtain ⟨hsame, hgroups⟩ := useConflicts_spec h (.refl w) hconflicts
  refine ⟨?_, fun q list hlist user => ?_⟩
  · show Consistent reg
      (update w1.packages p { w1.packages p with tables := (w1.packages p).tables ++ packages })
    rw [hsame.packages]
    have hvisible :
      ∀ s, Visible w.packages { w.packages p with tables := (w.packages p).tables ++ packages } s →
        Visible w.packages (w.packages p) s ∨ ∃ q ∈ packages, s ∈ (w.packages q).external := by
      intro s hs
      rcases hs with hs | ⟨q, hq, hs⟩
      · exact .inl (.inl hs)
      · rcases mem_append.mp hq with hq | hq
        · exact .inl (.inr ⟨q, hq, hs⟩)
        · exact .inr ⟨q, hq, hs⟩
    refine h.consistent.update_of_external (h.consistent.unique p) (h.consistent.shadowing p) ?_
      (fun s hs => hs) ?_
    · intro hmem
      rcases mem_append.mp hmem with hmem | hmem
      · exact h.consistent.keyword p hmem
      · exact hkeyword (hnew _ hmem)
    intro name
    by_cases hexists : ∃ s ∈ packages.flatMap (fun q => (w.packages q).external), s.name = name
    · obtain ⟨s, hs, rfl⟩ := hexists
      obtain ⟨group, hgroup, hname, -⟩ := mem_nameGroups hs
      have hin : ∀ t,
        Visible w.packages { w.packages p with tables := (w.packages p).tables ++ packages } t →
          t.name = s.name → t ∈ group.2 ∨ Visible w.packages (w.packages p) t ∧
          t.name = group.1 := by
        intro t ht htname
        rcases hvisible t ht with ht | ⟨q, hq, ht⟩
        · exact .inr ⟨ht, htname.trans hname.symm⟩
        have htmem : t ∈ packages.flatMap fun q => (w.packages q).external :=
          mem_flatMap.mpr ⟨q, hq, ht⟩
        obtain ⟨group', hgroup', hname', ht'⟩ := mem_nameGroups htmem
        have heq : group' = group := by
          have hfst : group'.1 = group.1 := hname'.trans (htname.trans hname.symm)
          exact inj_on_of_nodup_map (groups_nameGroups _).names hgroup' hgroup hfst
        exact .inl (heq ▸ ht')
      rcases hgroups group hgroup with ⟨s', hs', hs'name⟩ | hone
      · exact .inl ⟨s', hs', hs'name.trans hname⟩
      · exact .inr fun t u ht hu htname huname => hone t u (hin t ht htname) (hin u hu huname)
    · have hold : ∀ t,
        Visible w.packages { w.packages p with tables := (w.packages p).tables ++ packages } t →
          t.name = name → Visible w.packages (w.packages p) t := by
        intro t ht htname
        rcases hvisible t ht with ht | ⟨q, hq, ht⟩
        · exact ht
        · exact absurd ⟨t, mem_flatMap.mpr ⟨q, hq, ht⟩, htname⟩ hexists
      rcases h.consistent.agrees p name with hshadow | hone
      · exact .inl hshadow
      · exact .inr fun t u ht hu htname huname =>
          hone t u (hold t ht htname) (hold u hu huname) htname huname
  · show user ∈ list ↔ q ∈ (update w1.packages p _ user).tables
    dsimp only at hlist
    split at hlist
    · cases hlist
    rename_i hq
    have hlist' : w1.usedBy q = some list := hlist
    rw [hsame.usedBy] at hlist'
    rw [h.coherent q list hlist' user, hsame.packages]
    by_cases huser : user = p
    · subst huser
      rw [update_self]
      exact ⟨fun hmem => mem_append_left _ hmem, fun hmem => (mem_append.mp hmem).resolve_right hq⟩
    · rw [update_of_ne huser]

omit [DecidableEq N] in
theorem Invariant.unusePackage (h : Invariant reg w) (packagesToUnuse : List P) :
    Invariant reg (w.unusePackage p packagesToUnuse) := by
  refine ⟨?_, fun q list hlist user => ?_⟩
  · refine h.consistent.update_of_external (h.consistent.unique p) (h.consistent.shadowing p) ?_
      (fun s hs => hs) ?_
    · intro hmem
      exact h.consistent.keyword p (mem_filter.mp hmem).1
    refine (h.consistent.agrees p).mono (fun s hs => ?_) fun s hs => hs
    rcases hs with hs | ⟨q, hq, hs⟩
    · exact .inl hs
    · exact .inr ⟨q, (mem_filter.mp hq).1, hs⟩
  · show user ∈ list ↔ q ∈ (update w.packages p _ user).tables
    change (if q ∈ packagesToUnuse then none else w.usedBy q) = some list at hlist
    split at hlist
    · cases hlist
    rename_i hq
    rw [h.coherent q list hlist user]
    by_cases huser : user = p
    · subst huser
      rw [update_self]
      simp [mem_filter, hq]
    · rw [update_of_ne huser]

end Use

/-! ## Runs -/

section Runs

variable [DecidableEq P] [DecidableEq N] {reg : Registry P} {w w' : World P N}

/-- A call of `use-package` that lists KEYWORD. -/
def Op.UsesKeyword (reg : Registry P) : Op P N → Prop
  | .usePackage packagesToUse _ => reg.keyword ∈ packagesToUse
  | _ => False

theorem Invariant.step (h : Invariant reg w) {op : Op P N} (hop : ¬ op.UsesKeyword reg)
    (hstep : w.step reg op = some w') : Invariant reg w' := by
  cases op with
  | intern name p =>
    cases hstep
    exact h.intern name
  | «import» symbols p => exact (h.import_spec hstep).1
  | shadow names p =>
    cases hstep
    exact h.shadow names
  | shadowingImport symbols p => exact h.shadowingImport hstep
  | «export» symbols p => exact h.export hstep
  | unexport symbols p => exact h.unexport hstep
  | unintern symbol p =>
    obtain ⟨⟨b, w2⟩, hrun, heq⟩ := map_eq_some_iff.mp hstep
    cases heq
    exact h.unintern hrun
  | usePackage packagesToUse p => exact h.usePackage hop hstep
  | unusePackage packagesToUnuse p =>
    cases hstep
    exact h.unusePackage packagesToUnuse

theorem useConflicts_same {p : P} {shadowing : List (Sym N)} :
    ∀ {groups : List (N × List (Sym N))} {w w' : World P N},
    World.useConflicts p shadowing w groups = some w' → w'.packages = w.packages
  | [], w, w', hrun => by
    cases hrun
    rfl
  | (name, group) :: groups, w, w', hrun => by
    unfold World.useConflicts at hrun
    obtain ⟨found, w1, hfind, -, hsame⟩ := findSymbol_cases w p name
    rw [hfind] at hrun
    cases found with
    | none =>
      dsimp only at hrun
      split at hrun
      · cases hrun
      · exact (useConflicts_same hrun).trans hsame.packages
    | some found =>
      dsimp only at hrun
      split at hrun
      · exact (useConflicts_same hrun).trans hsame.packages
      · cases hrun

/-- The test for KEYWORD never fails. -/
theorem usesKeyword_step {op : Op P N} (hop : op.UsesKeyword reg)
    (hstep : w.step reg op = some w') : ∃ p, reg.keyword ∈ (w'.packages p).tables := by
  cases op with
  | usePackage packagesToUse p =>
    refine ⟨p, ?_⟩
    have hrun : w.usePackage p reg packagesToUse = some w' := hstep
    have hkeyword : reg.keyword ∈ packagesToUse := hop
    unfold World.usePackage at hrun
    split at hrun
    · cases hrun
    rw [if_neg (by simp)] at hrun
    obtain ⟨w1, hconflicts, hrun⟩ := bind_eq_some_iff.1 hrun
    cases hrun
    show reg.keyword ∈ (update w1.packages p _ p).tables
    rw [update_self, useConflicts_same hconflicts]
    by_cases hused : reg.keyword ∈ (w.packages p).tables
    · exact mem_append_left _ hused
    · exact mem_append_right _ (mem_filter.mpr ⟨mem_eraseDups.mpr hkeyword, by simpa using hused⟩)
  | _ => exact hop.elim

/-- In a run of operations that complete, every state is consistent exactly if no call of
`use-package` lists KEYWORD. -/
theorem run_consistent_iff {ops : List (Op P N)} {ws : List (World P N)} (h : Invariant reg w)
    (hrun : Run reg w ops ws) :
    (∀ w' ∈ ws, Consistent reg w'.packages) ↔ ∀ op ∈ ops, ¬ op.UsesKeyword reg := by
  induction hrun with
  | nil w => simp
  | @cons w w' op ops ws hstep _ ih =>
    by_cases hop : op.UsesKeyword reg
    · refine ⟨fun hall => ?_, fun hnone => absurd hop (hnone op mem_cons_self)⟩
      obtain ⟨p, hp⟩ := usesKeyword_step hop hstep
      exact absurd hp ((hall w' mem_cons_self).keyword p)
    have h' := h.step hop hstep
    have ih' := ih h'
    simp only [forall_mem_cons]
    exact ⟨fun hall => ⟨hop, ih'.mp hall.2⟩, fun hnone => ⟨h'.consistent, ih'.mpr hnone.2⟩⟩

/-- Packages without symbols. -/
def emptyWorld (P N : Type) : World P N :=
  ⟨fun _ => ⟨[], [], [], []⟩, fun _ => 0, fun _ => none, fun _ => none, 0⟩

omit [DecidableEq P] [DecidableEq N] in
theorem invariant_empty (reg : Registry P) : Invariant reg (emptyWorld P N) := by
  refine ⟨⟨fun p => nodup_nil, fun p s hs => absurd hs not_mem_nil,
    fun p name => .inr fun s t hs => ?_,
    fun p => not_mem_nil⟩, fun p list hlist => absurd hlist (by simp [emptyWorld])⟩
  rcases hs with hs | ⟨q, hq, -⟩
  · exact absurd hs not_mem_nil
  · exact absurd hq not_mem_nil

/-- KEYWORD and two more packages. -/
def threePackages : Registry (Fin 3) := ⟨[0, 1, 2], by decide, 0⟩

theorem run_consistent_three : ∃ ws, Run threePackages (emptyWorld (Fin 3) ℕ)
    [.intern 7 1, .export [⟨0, 7⟩] 1, .usePackage [1] 2, .intern 7 0, .shadow [7] 2] ws ∧
      ∀ w ∈ ws, Consistent threePackages w.packages := by
  obtain ⟨ws, hrun⟩ : ∃ ws, Run threePackages (emptyWorld (Fin 3) ℕ)
      [.intern 7 1, .export [⟨0, 7⟩] 1, .usePackage [1] 2, .intern 7 0, .shadow [7] 2] ws :=
    ⟨_, .cons rfl (.cons rfl (.cons rfl (.cons rfl (.cons rfl (.nil _)))))⟩
  refine ⟨ws, hrun, (run_consistent_iff (invariant_empty threePackages) hrun).mpr ?_⟩
  simp [Op.UsesKeyword, threePackages]

/-- The second package uses KEYWORD, and a symbol of KEYWORD that is made later is in conflict with
one of its own. -/
theorem usePackage_keyword : ∃ ws, Run threePackages (emptyWorld (Fin 3) ℕ)
    [.intern 7 1, .usePackage [0] 1, .intern 7 0] ws ∧
      ∃ w ∈ ws, threePackages.keyword ∈ (w.packages 1).tables ∧
        ¬ Agrees w.packages (w.packages 1) := by
  refine ⟨_, .cons rfl (.cons rfl (.cons rfl (.nil _))), _,
    mem_cons_of_mem _ (mem_cons_of_mem _ mem_cons_self), ?_, fun hagrees => ?_⟩
  · exact mem_cons_self
  rcases hagrees 7 with ⟨s, hs, -⟩ | hone
  · exact absurd hs not_mem_nil
  · have heq :=
      hone ⟨0, 7⟩ ⟨1, 7⟩ (.inl mem_cons_self) (.inr ⟨0, mem_cons_self, mem_cons_self⟩) rfl rfl
    cases heq

end Runs

end Sbcl.Packages
