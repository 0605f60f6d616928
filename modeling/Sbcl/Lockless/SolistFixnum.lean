import Sbcl.Lockless.SolistSolo

/-!
# Split-ordered sets and maps keyed by fixnums (code/solist.lisp, code/string-hash.lisp)

The inserter and the deleter of `make-so-set/fixnum` hash a key with `murmur-hash-word/+fixnum`,
which drops the high bits of the mixed word; `so-find/fixnum` hashes it with
`murmur-hash-word/fixnum`, which drops the tag bit and keeps the sign.

* `Runs`, `SoOps` : operations that run one after the other;
* `hasKey_contents` : the keys in the table are those inserted and not deleted since;
* `finds_iff` : when `so-find/fixnum` answers by these keys, and `finder_misses` a key that it does
  not find.
-/

namespace Sbcl.Lockless

open MarkedList Status

/-! ## Operations one after the other -/

section Runs
variable {K : Type} [LinearOrder K] {hashfun : K → Hash} {findHash : K → Option Hash}
    {hash : Hash} {key : K}
    {n : Nat} {t t' t'' t₁ t₂ : SoTable hashfun} {l l' l₁ l₂ : SoThread K}

/-- The thread runs alone. -/
inductive Runs (findHash : K → Option Hash) : SoTable hashfun → SoThread K → SoTable hashfun →
  SoThread K → Prop
  | refl (t : SoTable hashfun) (l : SoThread K) : Runs findHash t l t l
  | step {t t' : SoTable hashfun} {l l' : SoThread K} : l.Busy →
      Runs findHash (soStep findHash t l).1 (soStep findHash t l).2 t' l' → Runs findHash t l t' l'

inductive SoOp (K : Type) where
  | insert (key : K)
  | delete (key : K)
  | find (key : K)

def SoOp.invoke : SoOp K → SoThread K
  | .insert key => .insert key (.withBin .readBins)
  | .delete key => .delete key (.withBin .readBins)
  | .find key => .find key (.withBin .readBins)

/-- A sequence of operations, each run to its end. -/
inductive SoOps (findHash : K → Option Hash) : SoTable hashfun → List (SoOp K) →
  SoTable hashfun → Prop
  | nil (t : SoTable hashfun) : SoOps findHash t [] t
  | cons {t t₁ t' : SoTable hashfun} {l : SoThread K} {op : SoOp K} {ops : List (SoOp K)} :
      Runs findHash t op.invoke t₁ l → ¬ l.Busy → SoOps findHash t₁ ops t' →
        SoOps findHash t (op :: ops) t'

/-- The keys inserted and not deleted since, starting from `keys`. -/
def contents (keys : K → Prop) : List (SoOp K) → K → Prop
  | [] => keys
  | .insert key :: ops => contents (fun k => keys k ∨ k = key) ops
  | .delete key :: ops => contents (fun k => keys k ∧ k ≠ key) ops
  | .find _ :: ops => contents keys ops

theorem Runs.unique (h₁ : Runs findHash t l t₁ l₁) (hl₁ : ¬ l₁.Busy) (h₂ : Runs findHash t l t₂ l₂)
    (hl₂ : ¬ l₂.Busy) : t₁ = t₂ ∧ l₁ = l₂ := by
  induction h₁ with
  | refl =>
    cases h₂ with
    | refl => exact ⟨rfl, rfl⟩
    | step hb _ => exact absurd hb hl₁
  | step hb _ ih =>
    cases h₂ with
    | refl => exact absurd hb hl₂
    | step _ h₂ => exact ih hl₁ h₂

theorem runs_of_returns {A R : Type} {step : SoTable hashfun → A → SoTable hashfun × Status A R}
    {a : A} {r : R} (of : Status A R → SoThread K) (hbusy : ∀ a, (of (.running a)).Busy)
    (hstep : ∀ t a, soStep findHash t (of (.running a)) = ((step t a).1, of (step t a).2))
    (hret : Returns step t a t' r) : Runs findHash t (of (.running a)) t' (of (.returned r)) := by
  induction hret with
  | done hs =>
    refine .step (hbusy _) ?_
    rw [hstep, hs]
    exact .refl _ _
  | next hs _ ih =>
    refine .step (hbusy _) ?_
    rw [hstep, hs]
    exact ih

theorem insert_runs (findHash : K → Option Hash) (hg : SoGood t) (key : K) : ∃ t' n existed,
    Runs findHash t (SoOp.insert key).invoke t' (.inserted key (n, existed)) ∧ SoGood t' ∧
      ∀ k, HasKey t' k ↔ HasKey t k ∨ k = key := by
  obtain ⟨t', n, existed, hret, hrest⟩ := soInsert_returns hg key
  exact ⟨t', n, existed, runs_of_returns (.ofInsert key) (fun _ => trivial) (fun _ _ => rfl) hret,
    hrest⟩

theorem delete_runs (findHash : K → Option Hash) (hg : SoGood t) (key : K) : ∃ t' r,
    Runs findHash t (SoOp.delete key).invoke t' (.deleted key r) ∧ SoGood t' ∧
      ∀ k, HasKey t' k ↔ HasKey t k ∧ k ≠ key := by
  obtain ⟨t', r, hret, hrest⟩ := soDelete_returns hg key
  exact ⟨t', r, runs_of_returns (.ofDelete key) (fun _ => trivial) (fun _ _ => rfl) hret, hrest⟩

theorem soStep_find_eq (hh : findHash key = some hash) (t : SoTable hashfun) (pc : SoFindPc) :
    soStep findHash t (.find key pc) = ((soFindStep hash key t pc).1,
      .ofFind key (soFindStep hash key t pc).2) := by
  simp only [soStep, hh]

theorem find_runs (hg : SoGood t) (hh : findHash key = some hash) : ∃ t' r,
    Runs findHash t (SoOp.find key).invoke t' (.foundNode key r) ∧ FindResult hash key t t' r := by
  obtain ⟨t', r, hret, hrest⟩ := soFind_returns hg hash key
  exact ⟨t', r, runs_of_returns (.ofFind key) (fun _ => trivial) (soStep_find_eq hh) hret, hrest⟩

theorem outside_runs (h : Runs findHash t l t' l') (hl : l = .outside key) : l' = .outside key := by
  induction h with
  | refl => exact hl
  | step _ _ ih =>
    subst hl
    exact ih rfl

theorem find_outside (hh : findHash key = none) (h : Runs findHash t (SoOp.find key).invoke t' l')
    (hl : ¬ l'.Busy) : False := by
  cases h with
  | refl => exact hl trivial
  | step _ h =>
    have hs : soStep findHash t (.find key (.withBin .readBins)) = (t, .outside key) := by
      simp only [soStep, hh]
    rw [SoOp.invoke, hs] at h
    rw [outside_runs h rfl] at hl
    exact hl trivial

theorem op_runs (hg : SoGood t) {op : SoOp K} (h : Runs findHash t op.invoke t' l') (hl : ¬ l'.Busy)
    (keys : K → Prop) (hkeys : ∀ k, HasKey t k ↔ keys k) (ops : List (SoOp K)) :
    SoGood t' ∧ ∃ keys', (∀ k, HasKey t' k ↔ keys' k) ∧
      contents keys (op :: ops) = contents keys' ops := by
  cases op with
  | insert key =>
    obtain ⟨t₁, n, existed, h₁, hg₁, hk₁⟩ := insert_runs findHash hg key
    obtain ⟨rfl, rfl⟩ := h.unique hl h₁ id
    refine ⟨hg₁, fun k => keys k ∨ k = key, fun k => ?_, rfl⟩
    rw [hk₁, hkeys]
  | delete key =>
    obtain ⟨t₁, r, h₁, hg₁, hk₁⟩ := delete_runs findHash hg key
    obtain ⟨rfl, rfl⟩ := h.unique hl h₁ id
    refine ⟨hg₁, fun k => keys k ∧ k ≠ key, fun k => ?_, rfl⟩
    rw [hk₁, hkeys]
  | find key =>
    cases hh : findHash key with
    | none => exact absurd (find_outside hh h hl) id
    | some hash =>
      obtain ⟨t₁, r, h₁, hres⟩ := find_runs hg hh
      obtain ⟨rfl, rfl⟩ := h.unique hl h₁ id
      refine ⟨hres.good, keys, fun k => ?_, rfl⟩
      rw [hres.same.quiet, hkeys]

/-- The keys of the table are those inserted and not deleted since. -/
theorem hasKey_contents {ops : List (SoOp K)} (h : SoOps findHash t ops t') (hg : SoGood t)
    (keys : K → Prop)
    (hkeys : ∀ k, HasKey t k ↔ keys k) : SoGood t' ∧ ∀ k, HasKey t' k ↔ contents keys ops k := by
  induction h generalizing keys with
  | nil t => exact ⟨hg, hkeys⟩
  | @cons t t₁ t' l op ops hrun hl _ ih =>
    obtain ⟨hg₁, keys', hkeys', hcontents⟩ := op_runs hg hrun hl keys hkeys ops
    obtain ⟨hg', hk'⟩ := ih hg₁ keys' hkeys'
    refine ⟨hg', fun k => ?_⟩
    rw [hcontents, hk' k]

/-- Operations end, if the finder has a hash for each key that is looked for. -/
theorem ops_run {ops : List (SoOp K)} (hg : SoGood t)
    (hfinds : ∀ key, .find key ∈ ops → (findHash key).isSome = true) :
    ∃ t', SoOps findHash t ops t' := by
  induction ops generalizing t with
  | nil => exact ⟨t, .nil t⟩
  | cons op ops ih =>
    have hrest : ∀ key, .find key ∈ ops → (findHash key).isSome = true :=
      fun key hkey => hfinds key (List.mem_cons_of_mem op hkey)
    cases op with
    | insert key =>
      obtain ⟨t₁, n, existed, hrun, hg₁, -⟩ := insert_runs findHash hg key
      obtain ⟨t', hops⟩ := ih hg₁ hrest
      exact ⟨t', .cons hrun id hops⟩
    | delete key =>
      obtain ⟨t₁, r, hrun, hg₁, -⟩ := delete_runs findHash hg key
      obtain ⟨t', hops⟩ := ih hg₁ hrest
      exact ⟨t', .cons hrun id hops⟩
    | find key =>
      obtain ⟨hash, hh⟩ := Option.isSome_iff_exists.mp (hfinds key List.mem_cons_self)
      obtain ⟨t₁, r, hrun, hres⟩ := find_runs hg hh
      obtain ⟨t', hops⟩ := ih hres.good hrest
      exact ⟨t', .cons hrun id hops⟩

end Runs

/-! ## Fixnum keys -/

def murmur3Fmix64 (k : Word) : Word :=
  let k := k ^^^ (k >>> 33)
  let k := k * 0xff51afd7ed558ccd
  let k := k ^^^ (k >>> 33)
  let k := k * 0xc4ceb9fe1a85ec53
  k ^^^ (k >>> 33)

/-- `murmur-hash-word/fixnum`: the mixed word without its tag bit, as the bits of a fixnum. -/
def murmurHashWordFixnum (x : Word) : Int :=
  ((murmur3Fmix64 x &&& ~~~1).sshiftRight nFixnumTagBits).toInt

/-- `murmur-hash-word/+fixnum`: the mixed word below the sign bit of a fixnum. -/
def murmurHashWordPosFixnum (x : Word) : Hash :=
  ⟨(murmur3Fmix64 x).toNat % 2 ^ hashNbits, Nat.mod_lt _ (Nat.two_pow_pos _)⟩

/-- The hash function of `make-so-set/fixnum` and `make-so-map/fixnum`. -/
def fixnumHash (key : Fixnum) : Hash := murmurHashWordPosFixnum key.toWord

/-- The hash that `so-find/fixnum` computes; `none` when it is negative. -/
def fixnumFindHash (key : Fixnum) : Option Hash :=
  let hash := murmurHashWordFixnum key.toWord
  if h : 0 ≤ hash ∧ hash < (2 ^ hashNbits : Nat) then some ⟨hash.toNat,
    (Int.toNat_lt h.1).mpr h.2⟩ else none

/-- `so-find/fixnum` answers as the keys inserted and not deleted since say. -/
def Finds (t : SoTable fixnumHash) (key : Fixnum) (inserted : Prop) : Prop :=
  ∃ t' r, Runs fixnumFindHash t (SoOp.find key).invoke t' (.foundNode key r) ∧
    (r.isSome = true ↔ inserted) ∧
    ∀ n, r = some n → soKey (t'.heap.pos n) = key ∧ Unmarked n t'.heap

/-- The hash of the finder is not negative, and when the key is in the table, the way to its node is
clear. -/
def FinderAgrees (t : SoTable fixnumHash) (key : Fixnum) : Prop :=
  ∃ hash, fixnumFindHash key = some hash ∧ (HasKey t key → Clear hash key t)

theorem finds_iff {t : SoTable fixnumHash} (hg : SoGood t) (key : Fixnum) :
    Finds t key (HasKey t key) ↔ FinderAgrees t key := by
  constructor
  · rintro ⟨t', r, hrun, hiff, _⟩
    cases hh : fixnumFindHash key with
    | none => exact absurd (find_outside hh hrun id) id
    | some hash =>
      obtain ⟨t₁, r₁, hrun₁, hres⟩ := find_runs hg hh
      obtain ⟨rfl, hr⟩ := hrun.unique id hrun₁ id
      cases hr
      exact ⟨hash, hh, fun hk => (hres.isSome_iff.mp (hiff.mpr hk)).2⟩
  · rintro ⟨hash, hh, hclear⟩
    obtain ⟨t', r, hrun, hres⟩ := find_runs hg hh
    refine ⟨t', r, hrun, hres.isSome_iff.trans ⟨And.left, fun hk => ⟨hk, hclear hk⟩⟩,
      fun n hn => hres.some hn⟩

/-- The keys inserted and not deleted since, in a table that starts empty. -/
abbrev inserted (ops : List (SoOp Fixnum)) : Fixnum → Prop := contents (fun _ => False) ops

theorem makeSoList_empty (eltsPerBin : Nat) (key : Fixnum) :
    ¬ HasKey (makeSoList fixnumHash eltsPerBin) key := by
  rintro ⟨n, hn, _, hpos⟩
  exact WithBot.coe_ne_bot (eq_makeSoNode.mp hpos).symm

/-- After any operations, `so-find/fixnum` answers rightly about a key exactly when its hash agrees.
-/
theorem fixnum_finds (eltsPerBin : Nat) (ops : List (SoOp Fixnum)) (t : SoTable fixnumHash)
    (hops : SoOps fixnumFindHash (makeSoList fixnumHash eltsPerBin) ops t) (key : Fixnum) :
    Finds t key (inserted ops key) ↔ FinderAgrees t key := by
  obtain ⟨hg, hkeys⟩ :=
    hasKey_contents hops (makeSoList_good fixnumHash eltsPerBin) (fun _ => False)
    fun k => iff_of_false (makeSoList_empty eltsPerBin k) id
  rw [← finds_iff hg key, inserted, ← hkeys key]

def four : Fixnum := ⟨4, by decide, by decide⟩

theorem insert_four : ∃ t, SoOps fixnumFindHash (makeSoList fixnumHash 4) [.insert four] t ∧
    SoGood t ∧ HasKey t four := by
  obtain ⟨t, n, existed, hrun, hg, hkeys⟩ :=
    insert_runs fixnumFindHash (makeSoList_good fixnumHash 4) four
  exact ⟨t, .cons hrun id (.nil t), hg, (hkeys four).mpr (Or.inr rfl)⟩

theorem zero_lower : -2 ^ nPositiveFixnumBits ≤ (0 : Int) := by decide

theorem zero_upper : (0 : Int) < 2 ^ nPositiveFixnumBits := by decide

def zero : Fixnum := ⟨0, zero_lower, zero_upper⟩

def minusOne : Fixnum := ⟨-1, by decide, by decide⟩

def sixOps : List (SoOp Fixnum) :=
  [.insert four, .insert zero, .insert minusOne, .find zero, .delete four, .delete minusOne]

/-- The two hashes of the key 0 are equal, and it is found among the others. -/
theorem fixnum_finds_zero : ∃ t, SoOps fixnumFindHash (makeSoList fixnumHash 4) sixOps t ∧
    inserted sixOps zero ∧ ¬ inserted sixOps minusOne ∧ Finds t zero (inserted sixOps zero) := by
  have hhash : fixnumFindHash zero = some (fixnumHash zero) := by decide
  have hfinds : ∀ key, .find key ∈ sixOps → (fixnumFindHash key).isSome = true := by
    intro key hkey
    simp only [sixOps, List.mem_cons, reduceCtorEq, SoOp.find.injEq, List.not_mem_nil, or_false,
      false_or] at hkey
    rw [hkey, hhash]
    rfl
  obtain ⟨t, hops⟩ := ops_run (makeSoList_good fixnumHash 4) hfinds
  have hmem : inserted sixOps zero := ⟨⟨Or.inl (Or.inr rfl), by decide⟩, by decide⟩
  exact ⟨t, hops, hmem, fun h => h.2 rfl, (fixnum_finds 4 sixOps t hops zero).mpr ⟨_, hhash,
    fun _ => clear_own zero t⟩⟩

/-- The key 4 was inserted, and the finder, whose hash of it is larger, does not find it. -/
theorem finder_misses : ∃ t, SoOps fixnumFindHash (makeSoList fixnumHash 4) [.insert four] t ∧
    inserted [.insert four] four ∧
    ∃ t', Runs fixnumFindHash t (SoOp.find four).invoke t' (.foundNode four none) := by
  obtain ⟨t, hops, hg, hkey⟩ := insert_four
  have hhash : (maskedHash (fixnumHash four)).1 = 544940402469247093 := by decide
  have hfind : fixnumFindHash four = some ⟨2578313210448317498, by decide⟩ := by decide
  refine ⟨t, hops, Or.inr rfl, ?_⟩
  obtain ⟨t', r, hrun, hres⟩ := find_runs hg hfind
  cases r with
  | none => exact ⟨t', hrun⟩
  | some n =>
    have hclear := (hres.isSome_iff.mp rfl).2.1
    have hmask : (maskedHash ⟨2578313210448317498, by decide⟩).1 = 2578313210448317499 := by decide
    have hlt : nodeHash (makeSoNode fixnumHash four) < 2578313210448317499 := by
      change (maskedHash (fixnumHash four)).1 < _
      rw [hhash]
      decide
    have hlt' : (soTarget fixnumHash 2578313210448317499 four).lt (makeSoNode fixnumHash four) =
        true :=
      soTarget_lt_of_hash hlt
    rw [hmask, hlt'] at hclear
    cases hclear

end Sbcl.Lockless
