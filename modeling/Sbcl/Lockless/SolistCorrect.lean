import Sbcl.Lockless.SolistSolo

/-!
# Runs of threads on one split-ordered list

* `so_relyGuarantee` : the invariant of the table and what each thread knows survive every atomic
  step, whatever hash function the finder has;
* `keys_step`, `stays` : when a key comes, when it goes, and that its node stays until then;
* `publish_step` : what an expansion puts into the slot of the bins;
* `so_run` : tables keyed by strings and by addresses.
-/

namespace Sbcl.Lockless

open MarkedList Interleaving Nat

variable {K : Type} [LinearOrder K] {hashfun : K → Hash} {findHash : K → Option Hash}
    {key : K} {n : Nat}
    {t t' : SoTable hashfun} {W W' : SoTable hashfun → Prop}

/-! ## Threads -/

/-- What a thread knows. -/
def SoThreadInv (findHash : K → Option Hash) (W : SoTable hashfun → Prop) (t : SoTable hashfun) :
    SoThread K → Prop
  | .idle | .outside _ => True
  | .insert key pc => SoInsertInv key W t pc
  | .delete key pc => SoDeleteInv key W t pc
  | .find key pc => ∀ hash, findHash key = some hash → SoFindInv hash key W t pc
  | .inserted key (n, _) => HasNode key W t n
  | .deleted key r => r = false → SawAbsent (hashfun key) key W t
  | .foundNode key none => ∃ hash, findHash key = some hash ∧ SawAbsent hash key W t
  | .foundNode key (some n) => HasNode key W t n

theorem SoThreadInv.le (hle : SoLe t t') {l : SoThread K} (hi : SoThreadInv findHash W t l) :
    SoThreadInv findHash W t' l := by
  cases l with
  | idle => trivial
  | outside key => trivial
  | insert key pc => exact SoInsertInv.le hle hi
  | delete key pc => exact SoDeleteInv.le hle hi
  | find key pc => exact fun hash hh => (hi hash hh).le hle
  | inserted key r => exact HasNode.le hle.heap hi
  | deleted key r => exact fun hr => (hi hr).le hle.heap
  | foundNode key r =>
    cases r with
    | none =>
      obtain ⟨hash, hh, hs⟩ := hi
      exact ⟨hash, hh, hs.le hle.heap⟩
    | some n => exact HasNode.le hle.heap hi

theorem SoThreadInv.mono (hW : ∀ t, W t → W' t) {l : SoThread K} (hi : SoThreadInv findHash W t l) :
    SoThreadInv findHash W' t l := by
  cases l with
  | idle => trivial
  | outside key => trivial
  | insert key pc => exact SoInsertInv.mono hW hi
  | delete key pc => exact SoDeleteInv.mono hW hi
  | find key pc => exact fun hash hh => (hi hash hh).mono hW
  | inserted key r => exact HasNode.mono hW hi
  | deleted key r => exact fun hr => (hi hr).mono (HeapSeen.mono hW)
  | foundNode key r =>
    cases r with
    | none =>
      obtain ⟨hash, hh, hs⟩ := hi
      exact ⟨hash, hh, hs.mono (HeapSeen.mono hW)⟩
    | some n => exact HasNode.mono hW hi

theorem soStep_insert (pc : SoInsertPc) : soStep findHash t (.insert key pc) =
    ((soInsertStep key t pc).1, .ofInsert key (soInsertStep key t pc).2) := rfl

theorem soStep_delete (pc : SoDeletePc) : soStep findHash t (.delete key pc) =
    ((soDeleteStep key t pc).1, .ofDelete key (soDeleteStep key t pc).2) := rfl

theorem soStep_find {hash : Hash} (hh : findHash key = some hash) (pc : SoFindPc) :
    soStep findHash t (.find key pc) =
      ((soFindStep hash key t pc).1, .ofFind key (soFindStep hash key t pc).2) := by
  simp only [soStep, hh]

theorem soStep_outside (hh : findHash key = none) (pc : SoFindPc) :
    soStep findHash t (.find key pc) = (t, .outside key) := by
  simp only [soStep, hh]

theorem soInsertPost_run {pc : SoInsertPc} {s : Status SoInsertPc (Nat × Bool)}
    (hp : SoInsertPost key W t t' pc s) : SoThreadInv findHash W t' (.ofInsert key s) := by
  cases s with
  | running pc' => exact hp.1
  | returned r => exact hp.2.1

theorem soDeletePost_run {pc : SoDeletePc} {s : Status SoDeletePc Bool}
    (hp : SoDeletePost key W t t' pc s) : SoThreadInv findHash W t' (.ofDelete key s) := by
  cases s with
  | running pc' => exact hp.1
  | returned r =>
    cases r with
    | true => exact nofun
    | false => exact fun _ => hp.2.2

theorem soFindPost_run {hash : Hash} (hh : findHash key = some hash)
    {s : Status SoFindPc (Option Nat)}
    (hp : SoFindPost hash key W t s) : SoThreadInv findHash W t (.ofFind key s) := by
  cases s with
  | running pc' =>
    intro hash' hh'
    obtain rfl : hash = hash' := Option.some.inj (hh.symm.trans hh')
    exact hp
  | returned r =>
    cases r with
    | none => exact ⟨hash, hh, hp⟩
    | some n => exact hp

theorem so_relyGuarantee :
    RelyGuarantee (soMachine hashfun findHash) SoGood SoChange (SoThreadInv findHash) where
  init := by
    rintro t ⟨eltsPerBin, rfl⟩
    exact makeSoList_good hashfun eltsPerBin
  idle _ _ := trivial
  invoke := by
    rintro W t l hg ⟨⟩ hW
    case insert key => trivial
    case delete key => trivial
    case find key => exact fun _ _ => trivial
  step := by
    intro W t l t' l' hg hi hbusy hs hW hW'
    obtain ⟨rfl, rfl⟩ := hs
    cases l with
    | idle => exact absurd hbusy id
    | inserted key r => exact absurd hbusy id
    | deleted key r => exact absurd hbusy id
    | foundNode key r => exact absurd hbusy id
    | outside key => exact ⟨hg, .same t, trivial⟩
    | insert key pc =>
      rw [soStep_insert] at hW' ⊢
      obtain ⟨hc, hp⟩ := soInsertStep_spec hg hi hW hW'
      exact ⟨hc.good hg, hc, soInsertPost_run hp⟩
    | delete key pc =>
      rw [soStep_delete] at hW' ⊢
      obtain ⟨hc, hp⟩ := soDeleteStep_spec hg hi hW hW'
      exact ⟨hc.good hg, hc, soDeletePost_run hp⟩
    | find key pc =>
      cases hh : findHash key with
      | none =>
        rw [soStep_outside hh]
        exact ⟨hg, .same t, trivial⟩
      | some hash =>
        rw [soStep_find hh] at hW' ⊢
        obtain ⟨hc, _, hp⟩ := soFindStep_spec hg (hi hash hh) hW hW'
        exact ⟨hc.good hg, hc, soFindPost_run hh hp⟩
  stable W t t' l hc hi := hi.le hc.le
  refl t := .same t
  mono W W' t l hW hi := hi.mono hW

/-! ## Runs -/

/-- A run in which the finder has its own hash function. -/
abbrev SoRun (hashfun : K → Hash) (findHash : K → Option Hash) :=
  Execution (soMachine hashfun findHash)

/-- An unmarked node of the list with that key. -/
structure SoKeyNode (t : SoTable hashfun) (key : K) (n : Nat) : Prop where
  reach : Reach t.heap soHead n
  live : (t.heap.next n).marked = false
  key : soKey (t.heap.pos n) = key

namespace SoRun

variable {e : SoRun hashfun findHash}

structure InsertCall (e : SoRun hashfun findHash) (i a b : Nat) (key : K) (n : Nat)
    (existed : Bool) : Prop where
  call : e.Call i a b
  invoked : e.loc a i = .insert key (.withBin .readBins)
  result : e.loc b i = .inserted key (n, existed)

structure FindCall (e : SoRun hashfun findHash) (i a b : Nat) (key : K) (r : Option Nat) :
    Prop where
  call : e.Call i a b
  invoked : e.loc a i = .find key (.withBin .readBins)
  result : e.loc b i = .foundNode key r

/-- At this moment an insert of the key by thread `i` links its node. -/
def LinksAt (e : SoRun hashfun findHash) (m i : Nat) (key : K) : Prop :=
  ∃ pc pc', e.loc m i = .insert key pc ∧ e.loc (m + 1) i = .insert key pc' ∧
    ¬ pc.Linked ∧ pc'.Linked

/-- At this moment a delete of the key by thread `i` marks its node. -/
def MarksAt (e : SoRun hashfun findHash) (m i : Nat) (key : K) : Prop :=
  ∃ pc pc', e.loc m i = .delete key pc ∧ e.loc (m + 1) i = .delete key pc' ∧
    ¬ pc.Marked ∧ pc'.Marked

theorem good (e : SoRun hashfun findHash) (m : Nat) : SoGood (e.shared m) :=
  e.shared_inv so_relyGuarantee m

variable {a b : Nat}

theorem le (e : SoRun hashfun findHash) (hab : a ≤ b) : SoLe (e.shared a) (e.shared b) :=
  e.guarantee_le so_relyGuarantee SoLe.refl (fun _ _ _ => SoLe.trans) (fun _ _ => SoChange.le) hab

theorem knows (e : SoRun hashfun findHash) (m i : Nat) :
    SoThreadInv findHash (fun _ => True) (e.shared m) (e.loc m i) :=
  (Execution.inv e so_relyGuarantee m).2 i

variable {m : Nat}

theorem keyNode_iff (e : SoRun hashfun findHash) : SoKeyNode (e.shared m) key n ↔
    Unmarked n (e.shared m).heap ∧ (e.shared m).heap.pos n = makeSoNode hashfun key := by
  constructor
  · rintro ⟨hr, hm, hk⟩
    exact ⟨⟨((e.good m).wf.reach (e.good m).wf.root_lt hr).1, hm⟩, eq_makeSoNode.mpr hk⟩
  · rintro ⟨⟨hn, hm⟩, hk⟩
    exact ⟨(e.good m).wf.live n hn hm, hm, eq_makeSoNode.mp hk⟩

theorem hasKey_iff (e : SoRun hashfun findHash) :
    HasKey (e.shared m) key ↔ ∃ n, SoKeyNode (e.shared m) key n := by
  refine exists_congr fun n => ?_
  rw [e.keyNode_iff, Unmarked, and_assoc]

theorem step_cases (e : SoRun hashfun findHash) (m : Nat) :
    e.shared (m + 1) = e.shared m ∨ ∃ i, (e.loc m i).Busy ∧
      e.shared (m + 1) = (soStep findHash (e.shared m) (e.loc m i)).1 ∧
        e.loc (m + 1) i = (soStep findHash (e.shared m) (e.loc m i)).2 := by
  rcases e.next m with heq | ⟨i, hstep⟩
  · left
    rw [Execution.shared, heq, Execution.shared]
  · obtain ⟨_, hs, _⟩ | ⟨hbusy, hs⟩ := hstep.own
    · exact Or.inl hs
    · exact Or.inr ⟨i, hbusy, hs⟩

theorem keys_step (e : SoRun hashfun findHash) (m : Nat) :
    Quiet (e.shared m) (e.shared (m + 1)) ∨
      (∃ i key, e.LinksAt m i key ∧
        Linked (makeSoNode hashfun key) (e.shared m).heap (e.shared (m + 1)).heap) ∨
      ∃ i key n, e.MarksAt m i key ∧
        Marks (makeSoNode hashfun key) n (e.shared m).heap (e.shared (m + 1)).heap := by
  rcases e.step_cases m with hs | ⟨i, hbusy, hs, hl⟩
  · left
    rw [hs]
    exact .refl _
  have hi := e.knows m i
  rw [hs]
  cases hloc : e.loc m i with
  | idle => rw [hloc] at hbusy; exact absurd hbusy id
  | inserted key r => rw [hloc] at hbusy; exact absurd hbusy id
  | deleted key r => rw [hloc] at hbusy; exact absurd hbusy id
  | foundNode key r => rw [hloc] at hbusy; exact absurd hbusy id
  | outside key => exact Or.inl (.refl _)
  | insert key pc =>
    rw [hloc] at hi hl
    rw [soStep_insert] at hl ⊢
    obtain ⟨_, hp⟩ := soInsertStep_spec (e.good m) hi trivial trivial
    generalize soInsertStep key (e.shared m) pc = r at hp hl ⊢
    obtain ⟨t', s⟩ := r
    cases s with
    | running pc' =>
      obtain ⟨_, ⟨hq, _⟩ | ⟨hpc, hpc', hlink⟩⟩ := hp
      · exact Or.inl hq
      · exact Or.inr (Or.inl ⟨i, key, ⟨pc, pc', hloc, hl, hpc, hpc'⟩, hlink⟩)
    | returned r => exact Or.inl hp.1
  | delete key pc =>
    rw [hloc] at hi hl
    rw [soStep_delete] at hl ⊢
    obtain ⟨_, hp⟩ := soDeleteStep_spec (e.good m) hi trivial trivial
    generalize soDeleteStep key (e.shared m) pc = r at hp hl ⊢
    obtain ⟨t', s⟩ := r
    cases s with
    | running pc' =>
      obtain ⟨_, ⟨hq, _⟩ | ⟨hpc, hpc', n, hmark⟩⟩ := hp
      · exact Or.inl hq
      · exact Or.inr (Or.inr ⟨i, key, n, ⟨pc, pc', hloc, hl, hpc, hpc'⟩, hmark⟩)
    | returned r =>
      cases r with
      | true => exact Or.inl hp.1
      | false => exact Or.inl hp.1
  | find key pc =>
    rw [hloc] at hi
    cases hh : findHash key with
    | none =>
      rw [soStep_outside hh]
      exact Or.inl (.refl _)
    | some hash =>
      rw [soStep_find hh]
      exact Or.inl (soFindStep_spec (e.good m) (hi hash hh) trivial trivial).2.1

omit [LinearOrder K] in
theorem makeSoNode_inj {key' : K} (h : makeSoNode hashfun key = makeSoNode hashfun key') :
    key = key' :=
  WithBot.coe_inj.mp (eq_makeSoNode.mp h)

theorem hasKey_succ (hk : HasKey (e.shared m) key) (hmarks : ∀ i, ¬ e.MarksAt m i key) :
    HasKey (e.shared (m + 1)) key := by
  obtain hq | ⟨i, key', _, hl⟩ | ⟨i, key', n, hm, hmark⟩ := e.keys_step m
  · exact (hq key).mpr hk
  · exact hl.present.mpr (Or.inl hk)
  · refine (hmark.present (e.good m).wf).mpr ⟨hk, fun h => ?_⟩
    rw [makeSoNode_inj h] at hmarks
    exact hmarks i hm

theorem heap_change (hc : SoChange t t') : Change IsDummy t.heap t'.heap := by
  cases hc with
  | heap hc => exact hc
  | _ => exact .tidy .same

theorem stays {m' : Nat} (hmm : m ≤ m') (hn : SoKeyNode (e.shared m) key n)
    (hmarks : ∀ x i, m ≤ x → x < m' → ¬ e.MarksAt x i key) : SoKeyNode (e.shared m') key n := by
  induction m', hmm using le_induction with
  | base => exact hn
  | succ x hmx ih =>
    have hx := ih fun y i hmy hyx => hmarks y i hmy (lt_succ_of_lt hyx)
    obtain ⟨⟨hlt, hu⟩, hpos⟩ := e.keyNode_iff.mp hx
    have hk := hasKey_succ (e.hasKey_iff.mpr ⟨n, hx⟩) fun i => hmarks x i hmx (lt_succ_self x)
    have hc := e.guarantee so_relyGuarantee x
    have hle := (e.le (le_succ x)).heap
    refine e.keyNode_iff.mpr ⟨⟨Nat.lt_of_lt_of_le hlt hle.top, ?_⟩, (hle.pos n hlt).trans hpos⟩
    exact (heap_change hc).unmarked (e.good x).wf hlt hu (hpos ▸ hk)

/-! ### Results of calls -/

theorem hasNode_seen (hn : HasNode key (Execution.Window e a b) (e.shared b) n) :
    ∃ m, a ≤ m ∧ m ≤ b ∧ SoKeyNode (e.shared m) key n := by
  obtain ⟨_, hpos, h₀, ⟨t₀, ⟨m, ham, hmb, rfl⟩, rfl⟩, hle, hu⟩ := hn
  refine ⟨m, ham, hmb, e.keyNode_iff.mpr ⟨hu, ?_⟩⟩
  rw [← hle.pos n hu.1]
  exact hpos

theorem sawAbsent_seen (hs : SawAbsent (hashfun key) key (Execution.Window e a b) t) :
    ∃ m, a ≤ m ∧ m ≤ b ∧ ¬ HasKey (e.shared m) key := by
  obtain ⟨h₀, ⟨t₀, ⟨m, ham, hmb, rfl⟩, rfl⟩, _, hn⟩ := hs
  exact ⟨m, ham, hmb, hn.absent (e.good m).wf (soTarget_at key)⟩

variable {i : Nat}

theorem InsertCall.node {existed : Bool} (hc : InsertCall e i a b key n existed) :
    ∃ m, a ≤ m ∧ m ≤ b ∧ SoKeyNode (e.shared m) key n := by
  have hw := hc.call.window so_relyGuarantee (Nat.le_of_lt hc.call.lt) (Nat.le_refl b)
  rw [hc.result] at hw
  exact hasNode_seen hw

theorem FindCall.finds (hc : FindCall e i a b key (some n)) :
    ∃ m, a ≤ m ∧ m ≤ b ∧ SoKeyNode (e.shared m) key n := by
  have hw := hc.call.window so_relyGuarantee (Nat.le_of_lt hc.call.lt) (Nat.le_refl b)
  rw [hc.result] at hw
  exact hasNode_seen hw

/-- A finder that uses the hash function of the table fails only when the key is absent. -/
theorem FindCall.fails (hh : findHash key = some (hashfun key)) (hc : FindCall e i a b key none) :
    ∃ m, a ≤ m ∧ m ≤ b ∧ ¬ HasKey (e.shared m) key := by
  have hw := hc.call.window so_relyGuarantee (Nat.le_of_lt hc.call.lt) (Nat.le_refl b)
  rw [hc.result] at hw
  obtain ⟨hash, hh', hs⟩ := hw
  obtain rfl : hashfun key = hash := Option.some.inj (hh.symm.trans hh')
  exact sawAbsent_seen hs

variable {n' : Nat}

theorem keyNode_unique (hn : SoKeyNode (e.shared m) key n) (hn' : SoKeyNode (e.shared m) key n') :
    n = n' := by
  obtain ⟨⟨hlt, hu⟩, hpos⟩ := e.keyNode_iff.mp hn
  obtain ⟨⟨hlt', hu'⟩, hpos'⟩ := e.keyNode_iff.mp hn'
  exact (e.good m).wf.pos_injective hlt hlt' hu hu' (hpos.trans hpos'.symm)

/-- A key that was inserted, and that no delete has marked since, is found. -/
theorem find_inserted {j a' b' : Nat} {existed : Bool} {r : Option Nat}
    (hh : findHash key = some (hashfun key)) (hins : InsertCall e i a b key n existed)
    (hba : b ≤ a')
    (hfind : FindCall e j a' b' key r) (hmarks : ∀ m x, a ≤ m → m < b' → ¬ e.MarksAt m x key) :
    r = some n := by
  obtain ⟨m, ham, hmb, hn⟩ := hins.node
  have hstays : ∀ x, a' ≤ x → x ≤ b' → SoKeyNode (e.shared x) key n := fun x hax hxb =>
    stays (Nat.le_trans hmb (Nat.le_trans hba hax)) hn fun y k hmy hyx =>
      hmarks y k (Nat.le_trans ham hmy) (Nat.lt_of_lt_of_le hyx hxb)
  cases r with
  | none =>
    obtain ⟨x, hax, hxb, habs⟩ := hfind.fails hh
    exact absurd (e.hasKey_iff.mpr ⟨n, hstays x hax hxb⟩) habs
  | some n' =>
    obtain ⟨x, hax, hxb, hn'⟩ := hfind.finds
    rw [keyNode_unique (hstays x hax hxb) hn']

theorem bin_reach {j : Nat} (hb : b < (e.shared m).nvectors)
    (hi : ((e.shared m).vectors b).bin i = some n) (hj : ((e.shared m).vectors b).bin j = some n')
    (hji : j < i) : Reach (e.shared m).heap n' n := by
  have hwf := (e.good m).wf
  obtain ⟨_, hn⟩ := (e.good m).bin b hb i n hi
  obtain ⟨_, hn'⟩ := (e.good m).bin b hb j n' hj
  have hlt : (e.shared m).heap.pos n' < (e.shared m).heap.pos n := by
    rw [soNode_lt_iff, hn.hash, hn'.hash]
    exact Or.inl (Bins.dummyHash_strictMono _ hji)
  have hr := hwf.live n hn.lt (hwf.fixed_live n hn.lt hn.dummy)
  have hr' := hwf.live n' hn'.lt (hwf.fixed_live n' hn'.lt hn'.dummy)
  rcases reach_total hr hr' with h | h
  · exact absurd hlt (not_lt.mpr (hwf.reach_pos_le hn.lt h))
  · exact h

theorem bin_doubled (hb : b + 1 < (e.shared m).nvectors)
    (hi : ((e.shared m).vectors b).bin i = some n)
    (hi' : ((e.shared m).vectors (b + 1)).bin (i * 2) = some n') : n = n' := by
  have hwf := (e.good m).wf
  obtain ⟨_, hn⟩ := (e.good m).bin b (lt_of_succ_lt hb) i n hi
  obtain ⟨_, hn'⟩ := (e.good m).bin (b + 1) hb (i * 2) n' hi'
  have hhash : nodeHash ((e.shared m).heap.pos n) = nodeHash ((e.shared m).heap.pos n') := by
    rw [hn.hash, hn'.hash, Bins.dummyHash, Bins.dummyHash, (e.good m).halved b hb, shiftLeft_eq,
      shiftLeft_eq, Nat.pow_succ', Nat.mul_assoc]
  exact hwf.pos_injective hn.lt hn'.lt (hwf.fixed_live n hn.lt hn.dummy)
    (hwf.fixed_live n' hn'.lt hn'.dummy) (soNode_ext hhash (hn.dummy.trans hn'.dummy.symm))

/-! ### Expansions -/

theorem withBinStep_nvectors (hash : Hash) (pc : WithBinPc) :
    (withBinStep hash t pc).1.nvectors = t.nvectors := by
  cases pc with
  | readBins => rfl
  | readBin b =>
    simp only [withBinStep]
    split <;> rfl
  | scan b below =>
    cases below with
    | zero => rfl
    | succ i =>
      simp only [withBinStep]
      split <;> rfl
  | insertDummy b start pc => rfl
  | storeBin b node =>
    simp only [withBinStep]
    split <;> rfl

omit [LinearOrder K] in
theorem counters_nvectors (t : SoTable hashfun) (count : Nat) :
    { t with count := count }.nvectors = t.nvectors := rfl

omit [LinearOrder K] in
theorem soExpandBins_publish {pc : ExpandPc} (h : (soExpandBins b t pc).1.nvectors ≠ t.nvectors) :
    ∃ new hshift, pc = .install new ∧ t.bins = b ∧
      (soExpandBins b t pc).1 = t.publish ((t.vectors b).doubled hshift new) := by
  cases pc with
  | readThreshold =>
    refine absurd ?_ h
    simp only [soExpandBins]
    split
    · rfl
    · split <;> rfl
  | casThreshold curThreshold =>
    refine absurd ?_ h
    simp only [soExpandBins]
    split <;> rfl
  | copy i new =>
    refine absurd ?_ h
    simp only [soExpandBins]
    split <;> rfl
  | install new =>
    by_cases hshift : 1 < (t.vectors b).shift
    · by_cases hslot : t.bins = b
      · refine ⟨new, hshift, rfl, hslot, ?_⟩
        simp only [soExpandBins, dif_pos hshift, if_pos hslot]
      · refine absurd ?_ h
        simp only [soExpandBins, dif_pos hshift, if_neg hslot]
    · refine absurd ?_ h
      simp only [soExpandBins, dif_neg hshift]

/-- Only the last step of an expansion puts a new vector into the slot. -/
theorem soStep_publish {l : SoThread K} (h : (soStep findHash t l).1.nvectors ≠ t.nvectors) :
    ∃ key node new hshift, l = .insert key (.expand t.bins node (.install new)) ∧
      (soStep findHash t l).1 = t.publish ((t.vectors t.bins).doubled hshift new) := by
  cases l with
  | insert key pc =>
    cases pc with
    | expand b node pc =>
      obtain ⟨new, hshift, rfl, rfl, heq⟩ := soExpandBins_publish h
      exact ⟨key, node, new, hshift, rfl, heq⟩
    | withBin pc => exact absurd (withBinStep_nvectors _ pc) h
    | put start b pc => exact absurd rfl h
    | incf b node => exact absurd (counters_nvectors t (atomicIncf t.count)) h
    | checkThreshold b node count => exact absurd rfl h
  | delete key pc =>
    cases pc with
    | withBin pc => exact absurd (withBinStep_nvectors _ pc) h
    | delete start pc => exact absurd rfl h
    | decf => exact absurd (counters_nvectors t (atomicDecf t.count)) h
  | find key pc =>
    cases hh : findHash key with
    | none =>
      rw [soStep_outside hh] at h
      exact absurd rfl h
    | some hash =>
      rw [soStep_find hh] at h
      cases pc with
      | withBin pc => exact absurd (withBinStep_nvectors _ pc) h
      | search start pc => exact absurd rfl h
  | _ => exact absurd rfl h

/-- An expansion at the moment `m`, by a call that has been going on since `a`. -/
structure Expansion (e : SoRun hashfun findHash) (a m : Nat) : Prop where
  le : a ≤ m
  call : ∃ i, SoInvoke (e.loc a i) ∧ ∀ x, a ≤ x → x ≤ m → (e.loc x i).Busy
  slot : (e.shared (m + 1)).bins = (e.shared m).bins + 1
  length : ((e.shared (m + 1)).vectors ((e.shared m).bins + 1)).length =
    2 * ((e.shared m).vectors (e.shared m).bins).length
  shift : ((e.shared m).vectors (e.shared m).bins).shift =
    ((e.shared (m + 1)).vectors ((e.shared m).bins + 1)).shift + 1
  /-- Old bin `i`, as it was at some moment of the call, is new bin `i * 2`. -/
  even : ∀ i < ((e.shared m).vectors (e.shared m).bins).length, ∃ x, a ≤ x ∧ x ≤ m ∧
    ((e.shared (m + 1)).vectors ((e.shared m).bins + 1)).bin (i * 2) =
    ((e.shared x).vectors (e.shared m).bins).bin i
  odd : ∀ i, ((e.shared (m + 1)).vectors ((e.shared m).bins + 1)).bin (i * 2 + 1) = none

theorem publish_step (e : SoRun hashfun findHash)
    (h : (e.shared (m + 1)).nvectors ≠ (e.shared m).nvectors) : ∃ a, Expansion e a m := by
  rcases e.step_cases m with hs | ⟨i, hbusy, hs, _⟩
  · exact absurd (by rw [hs]) h
  rw [hs] at h
  obtain ⟨key, node, new, hshift, hloc, heq⟩ := soStep_publish h
  obtain ⟨a, ham, hinv, hcall⟩ := e.exists_begin hbusy
  have hw := e.window so_relyGuarantee ham
    (so_relyGuarantee.invoke _ _ _ (e.good a) hinv ⟨a, Nat.le_refl _, Nat.le_refl _, rfl⟩)
    fun x hax hxm => hcall x hax (Nat.le_of_lt hxm)
  rw [hloc] at hw
  obtain ⟨_, _, hcopying⟩ := hw
  have hnew : (e.shared m).bins + 1 = (e.shared m).nvectors := (e.good m).slot
  have hvec : (e.shared (m + 1)).vectors ((e.shared m).bins + 1) =
      ((e.shared m).vectors (e.shared m).bins).doubled hshift new := by
    rw [hs, heq, hnew, SoTable.publish_vectors_new]
  refine ⟨a, ham, ⟨i, hinv, hcall⟩, ?_, ?_, ?_, fun k hk => ?_, fun k => ?_⟩
  · rw [hs, heq, hnew]
    rfl
  · rw [hvec, Bins.doubled_length]
  · rw [hvec, Bins.doubled_shift]
    omega
  · obtain ⟨t₀, ⟨x, hax, hxm, rfl⟩, hbin⟩ := hcopying.seen k hk
    refine ⟨x, hax, hxm, ?_⟩
    rw [hvec, Bins.doubled_bin]
    exact hbin
  · rw [hvec, Bins.doubled_bin]
    cases hj : new (k * 2 + 1) with
    | none => rfl
    | some n =>
      obtain ⟨k', hk', _⟩ := hcopying.copied.old _ n hj
      omega

end SoRun

/-- What holds in every run of such a table. -/
structure SoCorrect (e : SoRun hashfun fun key => some (hashfun key)) : Prop where
  /-- The list is sorted by hash and then by key. -/
  sorted : ∀ m a b, Reach (e.shared m).heap soHead a →
    Relation.TransGen (Succ (e.shared m).heap) a b →
    nodeHash ((e.shared m).heap.pos a) < nodeHash ((e.shared m).heap.pos b) ∨
      nodeHash ((e.shared m).heap.pos a) = nodeHash ((e.shared m).heap.pos b) ∧
        soKey ((e.shared m).heap.pos a) < soKey ((e.shared m).heap.pos b)
  /-- An initialized bin points at the dummy node of its hash, and the bins before it lead there. -/
  bin : ∀ m i n, ((e.shared m).vectors (e.shared m).bins).bin i = some n →
    nodeHash ((e.shared m).heap.pos n) = i <<< ((e.shared m).vectors (e.shared m).bins).shift ∧
      dummyNodeP ((e.shared m).heap.pos n) = true ∧ ((e.shared m).heap.next n).marked = false ∧
      ∀ j n', j < i → ((e.shared m).vectors (e.shared m).bins).bin j = some n' →
        Reach (e.shared m).heap n' n
  /-- A new vector of bins is made by an expansion of the one before. -/
  expansion : ∀ m, (e.shared (m + 1)).nvectors ≠ (e.shared m).nvectors → ∃ a, SoRun.Expansion e a m
  /-- Old bin `i` and new bin `i * 2` never differ once both are initialized. -/
  doubled : ∀ m b i n n', b + 1 < (e.shared m).nvectors → ((e.shared m).vectors b).bin i = some n →
    ((e.shared m).vectors (b + 1)).bin (i * 2) = some n' → n = n'
  unique : ∀ m key n n', SoKeyNode (e.shared m) key n → SoKeyNode (e.shared m) key n' → n = n'
  found : ∀ i j a b a' b' key n existed r, SoRun.InsertCall e i a b key n existed → b ≤ a' →
    SoRun.FindCall e j a' b' key r → (∀ m x, a ≤ m → m < b' → ¬ e.MarksAt m x key) → r = some n
  /-- The node of a key stays in the list until a delete marks it. -/
  kept : ∀ i a b m key n existed, SoRun.InsertCall e i a b key n existed → b ≤ m →
    (∀ x j, a ≤ x → x < m → ¬ e.MarksAt x j key) → SoKeyNode (e.shared m) key n
  /-- A find that runs alone returns, and finds a node exactly when the key is in the list. -/
  finds : ∀ m key, ∃ t r,
    Status.Returns (soFindStep (hashfun key) key) (e.shared m) (.withBin .readBins) t r ∧
    (r.isSome = true ↔ ∃ n, SoKeyNode (e.shared m) key n) ∧ ∀ n, r = some n → SoKeyNode t key n

theorem so_correct (e : SoRun hashfun fun key => some (hashfun key)) : SoCorrect e where
  sorted m a b ha hab := by
    have hwf := (e.good m).wf
    obtain ⟨c, hac, hcb⟩ := (Relation.TransGen.head'_iff).mp hab
    obtain ⟨hc, hpos⟩ := hwf.sorted a (hwf.reach hwf.root_lt ha).1 c hac
    exact soNode_lt_iff.mp (lt_of_lt_of_le hpos (hwf.reach_pos_le hc hcb))
  bin m i n hi := by
    have hg := e.good m
    obtain ⟨_, hn⟩ := hg.bin _ hg.bins_lt i n hi
    refine ⟨hn.hash, ?_, hg.wf.fixed_live n hn.lt hn.dummy, fun j n' hji hj => ?_⟩
    · exact beq_iff_eq.mpr hn.dummy.even
    · exact SoRun.bin_reach hg.bins_lt hi hj hji
  expansion m h := e.publish_step h
  doubled m b i n n' hb hi hi' := SoRun.bin_doubled hb hi hi'
  unique m key n n' hn hn' := SoRun.keyNode_unique hn hn'
  found i j a b a' b' key n existed r hins hba hfind hmarks :=
    SoRun.find_inserted rfl hins hba hfind hmarks
  kept i a b m key n existed hins hbm hmarks := by
    obtain ⟨x, hax, hxb, hnode⟩ := hins.node
    exact SoRun.stays (Nat.le_trans hxb hbm) hnode fun y j hxy => hmarks y j (Nat.le_trans hax hxy)
  finds m key := by
    obtain ⟨t, r, hret, hres⟩ := soFind_returns (e.good m) (hashfun key) key
    refine ⟨t, r, hret, ?_, fun n hn => ?_⟩
    · rw [hres.isSome_iff, e.hasKey_iff, and_iff_left (clear_own key _)]
    · obtain ⟨hkey, hlt, hlive⟩ := hres.some hn
      exact ⟨hres.good.wf.live n hlt hlive, hlive, hkey⟩

/-- Sets and maps keyed by addresses and by strings. -/
theorem so_run : (∀ e : Execution soAddrMachine, SoCorrect e) ∧
    ∀ sxhash, ∀ e : Execution (soStringMachine sxhash), SoCorrect e :=
  ⟨fun e => so_correct e, fun _ e => so_correct e⟩

end Sbcl.Lockless
