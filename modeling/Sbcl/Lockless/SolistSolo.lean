import Sbcl.Lockless.LflistSolo
import Sbcl.Lockless.SolistStep

/-!
# Table operations that run alone

* `withBin_returns`, `expand_returns` : finding a bin and expanding the bins come to an end;
* `soInsert_returns`, `soDelete_returns`, `soFind_returns` : what the operations return and what
  they do to the keys of the table.
-/

namespace Sbcl.Lockless

open MarkedList Status

variable {K : Type} {hashfun : K → Hash} {hash : Hash} {key : K} {n b i start : Nat}
    {t t' t'' : SoTable hashfun}

/-- The nodes are the same, but for a dummy node that a search for the hash leaves behind it. -/
structure SameKeys (hash : Nat) (t t' : SoTable hashfun) : Prop where
  mono : ∀ p, Present t.heap p → Present t'.heap p
  dummy : ∀ p, Present t'.heap p → Present t.heap p ∨ (IsDummy p ∧ nodeHash p ≤ hash)

theorem SameKeys.of_iff {hash : Nat} (h : ∀ p, Present t'.heap p ↔ Present t.heap p) :
    SameKeys hash t t' :=
  ⟨fun p => (h p).mpr, fun p hp => Or.inl ((h p).mp hp)⟩

theorem SameKeys.trans {hash : Nat} (h : SameKeys hash t t') (h' : SameKeys hash t' t'') :
    SameKeys hash t t'' where
  mono p hp := h'.mono p (h.mono p hp)
  dummy p hp := by
    rcases h'.dummy p hp with hp | hd
    · exact h.dummy p hp
    · exact Or.inr hd

theorem SameKeys.quiet {hash : Nat} (h : SameKeys hash t t') : Quiet t t' := by
  intro key
  refine ⟨fun hp => (h.dummy _ hp).resolve_right fun hd => ?_, h.mono _⟩
  exact WithBot.coe_ne_bot hd.1

variable [LinearOrder K]

/-! ## Finding the bin -/

/-- What `with-bin` returns when it runs alone. -/
structure WithBinResult (hash : Hash) (t t' : SoTable hashfun) (start b : Nat) : Prop where
  good : SoGood t'
  lt : b < t'.nvectors
  start : IsStart hash.1 t' start
  same : SameKeys hash.1 t t'

theorem storeBin_returns (hg : SoGood t) (hb : b < t.nvectors)
    (hn : IsBin t b ((t.vectors b).index hash) n)
    (hnone : (t.vectors b).bin ((t.vectors b).index hash) = none) :
    ∃ t', Returns (withBinStep hash) t (.storeBin b n) t' (n, b) ∧ WithBinResult hash t t' n b := by
  have hc := SoChange.setBin b _ n hb ((t.vectors b).index_lt hash) hnone hn
  refine ⟨_, .done ?_, hc.good hg, hb, hn.isStart.mono hc.le, .of_iff fun _ => Iff.rfl⟩
  simp only [withBinStep, hnone]

theorem insertDummy_returns (hg : SoGood t) (hb : b < t.nvectors)
    (hnone : (t.vectors b).bin ((t.vectors b).index hash) = none)
    (hl : Left (dummyTarget hashfun (binHash t b hash)) t.heap start)
    (hd : IsDummy (t.heap.pos start)) :
    ∃ t' n, Returns (withBinStep hash) t (.insertDummy b start .searchAgain) t' (n, b) ∧
      WithBinResult hash t t' n b := by
  have hlt := (t.vectors b).dummyHash_lt ((t.vectors b).index_lt hash)
  have heven := (t.vectors b).dummyHash_even ((t.vectors b).index hash)
  have hat : (dummyTarget hashfun _).At _ := dummyTarget_at hlt heven
  have hle := (t.vectors b).dummyHash_index_le hash
  obtain ⟨h', n, existed, hret, hu, hpos, h₁, htidy, hcase⟩ :=
    insert_returns hg.wf hat hl (hg.wf.fixed_live start hl.1 hd)
  -- the step that links the dummy node, or finds it, leaves a good table
  have hgood : SoGood { t with heap := h' } ∧ SameKeys hash.1 t { t with heap := h' } := by
    have hg₁ := (SoChange.heap (.tidy htidy)).good hg
    rcases hcase with ⟨_, rfl⟩ | ⟨_, hl⟩
    · exact ⟨hg₁, .of_iff fun _ => htidy.present⟩
    have hc : SoChange { t with heap := h₁ } { t with heap := h' } := .heap hl.soChange
    refine ⟨hc.good hg₁, fun p hp => hl.present.mpr (Or.inl (htidy.present.mpr hp)), fun p hp => ?_⟩
    rcases hl.present.mp hp with hp | rfl
    · exact Or.inl (htidy.present.mp hp)
    · exact Or.inr ⟨isDummy_makeSoDummyNode hlt heven, hle⟩
  obtain ⟨hg', hsame⟩ := hgood
  have hbin : IsBin { t with heap := h' } b ((t.vectors b).index hash) n := by
    refine ⟨hu.1, ?_, ?_⟩
    · change nodeHash (h'.pos n) = _
      rw [hpos]
      rfl
    · change IsDummy (h'.pos n)
      rw [hpos]
      exact isDummy_makeSoDummyNode hlt heven
  obtain ⟨t', hstore, hres⟩ := storeBin_returns hg' hb hbin hnone
  refine ⟨t', n, ?_, hres.good, hres.lt, hres.start, hsame.trans hres.same⟩
  refine hret.embed (fun h => { t with heap := h }) (WithBinPc.insertDummy b start)
    (fun h pc h₁ pc₁ hs => ?_) fun h pc hs => ?_
  · rw [withBinStep_insertDummy, soInsertDummy, hs]
  · refine .next ?_ hstore
    rw [withBinStep_insertDummy, soInsertDummy, hs]

theorem scan_returns (hg : SoGood t) (hb : b < t.nvectors)
    (hnone : (t.vectors b).bin ((t.vectors b).index hash) = none) {below : Nat} (hpos : 0 < below)
    (hle : below ≤ (t.vectors b).index hash) :
    ∃ t' n, Returns (withBinStep hash) t (.scan b below) t' (n, b) ∧
      WithBinResult hash t t' n b := by
  induction below with
  | zero => exact absurd hpos (Nat.lt_irrefl 0)
  | succ i ih =>
    cases hbin : (t.vectors b).bin i with
    | some start =>
      obtain ⟨_, hn⟩ := hg.bin b hb i start hbin
      have hl : Left (dummyTarget hashfun (binHash t b hash)) t.heap start := by
        refine ⟨hn.lt, decide_eq_true ?_⟩
        rw [hn.hash]
        exact Bins.dummyHash_strictMono _ hle
      obtain ⟨t', n, hret, hres⟩ := insertDummy_returns hg hb hnone hl hn.dummy
      refine ⟨t', n, .next ?_ hret, hres⟩
      simp only [withBinStep, hbin]
    | none =>
      have hi : 0 < i := by
        refine Nat.pos_of_ne_zero ?_
        rintro rfl
        rw [hg.first b hb] at hbin
        cases hbin
      obtain ⟨t', n, hret, hres⟩ := ih hi (Nat.le_of_succ_le hle)
      refine ⟨t', n, .next ?_ hret, hres⟩
      simp only [withBinStep, hbin]

theorem withBin_returns (hg : SoGood t) (hash : Hash) : ∃ t' start b,
    Returns (withBinStep hash) t .readBins t' (start, b) ∧ WithBinResult hash t t' start b := by
  have hb := hg.bins_lt
  cases hbin : (t.vectors t.bins).bin ((t.vectors t.bins).index hash) with
  | some start =>
    refine ⟨t, start, t.bins, .next rfl (.done ?_), hg, hb, (hg.bin _ hb _ _ hbin).2.isStart,
      .of_iff fun _ => Iff.rfl⟩
    simp only [withBinStep, hbin]
  | none =>
    have hpos : 0 < (t.vectors t.bins).index hash := by
      refine Nat.pos_of_ne_zero fun h0 => ?_
      rw [h0, hg.first _ hb] at hbin
      cases hbin
    obtain ⟨t', n, hret, hres⟩ := scan_returns hg hb hbin hpos (Nat.le_refl _)
    refine ⟨t', n, t.bins, .next rfl (.next ?_ hret), hres⟩
    simp only [withBinStep, hbin]

/-! ## Expanding the bins -/

omit [LinearOrder K] in
theorem soExpandBins_heap (pc : ExpandPc) : (soExpandBins b t pc).1.heap = t.heap := by
  cases pc with
  | readThreshold =>
    simp only [soExpandBins]
    split
    · rfl
    · split <;> rfl
  | casThreshold curThreshold =>
    simp only [soExpandBins]
    split <;> rfl
  | copy i new =>
    simp only [soExpandBins]
    split <;> rfl
  | install new =>
    simp only [soExpandBins]
    split
    · split <;> rfl
    · rfl

/-- The expansion comes to an end and keeps the nodes. -/
def Expands (b : Nat) (t : SoTable hashfun) (pc : ExpandPc) : Prop :=
  ∃ t', Returns (soExpandBins b) t pc t' () ∧ SoGood t' ∧ t'.heap = t.heap

theorem Expands.step (hg : SoGood t) (hb : b < t.nvectors) {pc : ExpandPc}
    (hi : ExpandInv b (fun _ => True) t pc)
    (hnext : ∀ t' pc', SoGood t' → b < t'.nvectors → ExpandInv b (fun _ => True) t' pc' →
      soExpandBins b t pc = (t', .running pc') → Expands b t' pc') : Expands b t pc := by
  obtain ⟨hc, _, hpost⟩ := soExpandBins_spec hg hb hi trivial
  have hheap := soExpandBins_heap (b := b) (t := t) pc
  cases hs : soExpandBins b t pc with
  | mk t' s =>
    rw [hs] at hc hpost hheap
    cases s with
    | running pc' =>
      obtain ⟨t'', hret, hg'', hheap'⟩ :=
        hnext t' pc' (hc.good hg) (Nat.lt_of_lt_of_le hb hc.le.nvectors) hpost hs
      exact ⟨t'', .next hs hret, hg'', hheap'.trans hheap⟩
    | returned r => exact ⟨t', .done hs, hc.good hg, hheap⟩

theorem install_expands (hg : SoGood t) (hb : b < t.nvectors) {new : Nat → Option Nat}
    (hi : ExpandInv b (fun _ => True) t (.install new)) : Expands b t (.install new) := by
  refine Expands.step hg hb hi fun t' pc' _ _ _ hs => ?_
  simp only [soExpandBins] at hs
  split at hs
  · split at hs <;> cases hs
  · cases hs

theorem copy_expands {size : Nat} (hg : SoGood t) (hb : b < t.nvectors) {new : Nat → Option Nat}
    (hi : ExpandInv b (fun _ => True) t (.copy i new)) (hsize : (t.vectors b).length - i ≤ size) :
    Expands b t (.copy i new) := by
  induction size generalizing t i new with
  | zero =>
    refine Expands.step hg hb hi fun t' pc' hg' hb' hi' hs => ?_
    simp only [soExpandBins] at hs
    split at hs
    · omega
    · cases hs
      exact install_expands hg' hb' hi'
  | succ size ih =>
    refine Expands.step hg hb hi fun t' pc' hg' hb' hi' hs => ?_
    simp only [soExpandBins] at hs
    split at hs
    · cases hs
      exact ih hg' hb' hi' (by omega)
    · cases hs
      exact install_expands hg' hb' hi'

theorem expand_returns (hg : SoGood t) (hb : b < t.nvectors) : Expands b t .readThreshold := by
  refine Expands.step hg hb trivial fun t' pc' hg' hb' _ hs => ?_
  simp only [soExpandBins] at hs
  split at hs
  · cases hs
  split at hs
  · cases hs
    refine Expands.step hg' hb' trivial fun t' pc' hg' hb' hi' hs => ?_
    simp only [soExpandBins] at hs
    split at hs
    · cases hs
      exact copy_expands hg' hb' hi' (Nat.le_refl _)
    · cases hs
  · cases hs

/-! ## The operations -/

theorem incf_returns (key : K) (n : Nat) (hg : SoGood t) (hb : b < t.nvectors) : ∃ t',
    Returns (soInsertStep key) t (.incf b n) t' (n, false) ∧ SoGood t' ∧ t'.heap = t.heap := by
  have hg' : SoGood { t with count := atomicIncf t.count } :=
    (SoChange.counters _ t.threshold).good hg
  by_cases hcount : t.count > t.threshold
  · obtain ⟨t', hret, hgood, hheap⟩ := expand_returns hg' hb
    have hcheck :
      soInsertStep key { t with count := atomicIncf t.count } (.checkThreshold b n t.count) =
        ({ t with count := atomicIncf t.count }, .running (.expand b n .readThreshold)) := by
      simp only [soInsertStep, if_pos hcount]
    refine ⟨t', .next rfl (.next hcheck ?_), hgood, hheap⟩
    · refine hret.embed id (SoInsertPc.expand b n) (fun s pc s₁ pc₁ hs => ?_)
        fun s pc hs => .done ?_
      · rw [id, soInsertStep_expand, hs]
        rfl
      · rw [id, soInsertStep_expand, hs]
  · refine ⟨_, .next rfl (.done ?_), hg', rfl⟩
    simp only [soInsertStep, if_neg hcount]

theorem put_returns (hg : SoGood t) (hb : b < t.nvectors)
    (hstart : IsStart (maskedHash (hashfun key)).1 t start) :
    ∃ t' n existed, Returns (soInsertStep key) t (.put start b .searchAgain) t' (n, existed) ∧
      SoGood t' ∧ ∀ k, HasKey t' k ↔ HasKey t k ∨ k = key := by
  obtain ⟨h', n, existed, hret, hu, hpos, h₁, htidy, hcase⟩ :=
    insert_returns hg.wf (soTarget_at key) (hstart.left key) (hstart.anchored hg)
  have hthen : ∀ {t'' r}, (∀ s pc, soPut key start s pc = (h', .returned (n, existed)) →
      Returns (soInsertStep key) { t with heap := s } (.put start b pc) t'' r) →
      Returns (soInsertStep key) t (.put start b .searchAgain) t'' r := by
    intro t'' r hlast
    refine hret.embed (fun h => { t with heap := h }) (SoInsertPc.put start b)
      (fun h pc h₁ pc₁ hs => ?_) fun s pc hs => hlast s pc hs
    rw [soInsertStep_put, soPut, hs]
  have hg₁ := (SoChange.heap (.tidy htidy)).good hg
  rcases hcase with ⟨rfl, rfl⟩ | ⟨rfl, hl⟩
  · refine ⟨{ t with heap := h' }, n, true, hthen fun s pc hs => .done ?_, hg₁, fun k => ?_⟩
    · rw [soInsertStep_put, hs]
    have hq : HasKey { t with heap := h' } k ↔ HasKey t k := htidy.present
    have hkey : HasKey { t with heap := h' } key := ⟨n, hu.1, hu.2, hpos⟩
    rw [hq]
    refine ⟨Or.inl, fun h => h.elim id ?_⟩
    rintro rfl
    exact hq.mp hkey
  · have hg' := (SoChange.heap (t := { t with heap := h₁ }) hl.soChange).good hg₁
    obtain ⟨t', htail, hgood, hheap⟩ := incf_returns key n hg' hb
    refine ⟨t', n, false, hthen fun s pc hs => .next ?_ htail, hgood, fun k => ?_⟩
    · rw [soInsertStep_put, hs]
    · rw [HasKey, hheap]
      refine hl.present.trans (or_congr htidy.present ?_)
      exact ⟨fun h => WithBot.coe_inj.mp (eq_makeSoNode.mp h), fun h => congrArg _ h⟩

theorem withBin_then {A R : Type} {step : SoTable hashfun → A → SoTable hashfun × Status A R}
    (g : WithBinPc → A) (c : Nat → Nat → A) {r : R}
    (hstep : ∀ t pc, step t (g pc) = ((withBinStep hash t pc).1, .running
      (match (withBinStep hash t pc).2 with
      | .running pc' => g pc'
      | .returned (start, b) => c start b)))
    (hret : Returns (withBinStep hash) t .readBins t' (start, b))
    (hlast : Returns step t' (c start b) t'' r) : Returns step t (g .readBins) t'' r := by
  refine hret.embed id g (fun s pc s₁ pc₁ hs => ?_) fun s pc hs => .next ?_ hlast
  · rw [id, hstep, hs]
    rfl
  · rw [id, hstep, hs]

theorem soInsert_returns (hg : SoGood t) (key : K) : ∃ t' n existed,
    Returns (soInsertStep key) t (.withBin .readBins) t' (n, existed) ∧ SoGood t' ∧
      ∀ k, HasKey t' k ↔ HasKey t k ∨ k = key := by
  obtain ⟨t₁, start, b, hret, hres⟩ := withBin_returns hg (maskedHash (hashfun key))
  obtain ⟨t', n, existed, hput, hgood, hkeys⟩ := put_returns hres.good hres.lt hres.start
  refine ⟨t', n, existed, withBin_then SoInsertPc.withBin (fun start b => .put start b .searchAgain)
    (fun t pc => soInsertStep_withBin pc) hret hput, hgood, fun k => ?_⟩
  rw [hkeys k, hres.same.quiet k]

theorem delete_solo (hg : SoGood t) (hstart : IsStart (maskedHash (hashfun key)).1 t start) :
    ∃ t' r, Returns (soDeleteStep key) t (.delete start (.search .searchAgain)) t' r ∧ SoGood t' ∧
      ∀ k, HasKey t' k ↔ HasKey t k ∧ k ≠ key := by
  obtain ⟨h', r, hret, h₁, htidy, hcase⟩ :=
    delete_returns hg.wf (soTarget_at key) not_isDummy_makeSoNode (hstart.left key)
      (hstart.anchored hg)
  have hthen : ∀ {t'' x}, (∀ s pc, soDelete key start s pc = (h', .returned r) →
      Returns (soDeleteStep key) { t with heap := s } (.delete start pc) t'' x) →
      Returns (soDeleteStep key) t (.delete start (.search .searchAgain)) t'' x := by
    intro t'' x hlast
    refine hret.embed (fun h => { t with heap := h }) (SoDeletePc.delete start)
      (fun h pc h₁ pc₁ hs => ?_) fun s pc hs => hlast s pc hs
    rw [soDeleteStep_delete, soDelete, hs]
  have hg₁ := (SoChange.heap (.tidy htidy)).good hg
  have hq : ∀ k, HasKey { t with heap := h₁ } k ↔ HasKey t k := fun k => htidy.present
  rcases hcase with ⟨rfl, rfl, habs⟩ | ⟨rfl, n, h₂, h₃, hm, htidy₂, htidy₃⟩
  · refine ⟨_, false, hthen fun s pc hs => .done ?_, hg₁, fun k => ?_⟩
    · rw [soDeleteStep_delete, hs]
    rw [hq k]
    refine ⟨fun hk => ⟨hk, ?_⟩, And.left⟩
    rintro rfl
    exact habs ((hq k).mpr hk)
  · have hg₂ := (SoChange.heap (t := { t with heap := h₁ }) hm.soChange).good hg₁
    have hg₃ := (SoChange.heap (t := { t with heap := h₂ }) (.tidy htidy₂)).good hg₂
    have hg' := (SoChange.heap (t := { t with heap := h₃ }) (.tidy htidy₃)).good hg₃
    have hg'' :=
      (SoChange.counters (t := { t with heap := h' }) (atomicDecf t.count) t.threshold).good hg'
    have hdecf : Returns (soDeleteStep key) { t with heap := h' } .decf
        { t with heap := h', count := atomicDecf t.count } true := .done rfl
    refine ⟨_, true, hthen fun s pc hs => .next ?_ hdecf, hg'', fun k => ?_⟩
    · rw [soDeleteStep_delete, hs]
    · refine htidy₃.present.trans
        (htidy₂.present.trans ((hm.present hg₁.wf).trans (and_congr (hq k) ?_)))
      exact not_congr ⟨fun h => WithBot.coe_inj.mp (eq_makeSoNode.mp h), fun h => congrArg _ h⟩

theorem soDelete_returns (hg : SoGood t) (key : K) : ∃ t' r,
    Returns (soDeleteStep key) t (.withBin .readBins) t' r ∧ SoGood t' ∧
      ∀ k, HasKey t' k ↔ HasKey t k ∧ k ≠ key := by
  obtain ⟨t₁, start, b, hret, hres⟩ := withBin_returns hg (maskedHash (hashfun key))
  obtain ⟨t', r, hdel, hgood, hkeys⟩ := delete_solo hres.good hres.start
  refine ⟨t', r,
    withBin_then SoDeletePc.withBin (fun start _ => .delete start (.search .searchAgain))
    (fun t pc => soDeleteStep_withBin pc) hret hdel, hgood, fun k => ?_⟩
  rw [hkeys k, hres.same.quiet k]

/-- Where a find that runs alone ends. -/
structure FindResult (hash : Hash) (key : K) (t t' : SoTable hashfun) (r : Option Nat) : Prop where
  good : SoGood t'
  same : SameKeys (maskedHash hash).1 t t'
  bracket : ∃ right left, Bracket (soTarget hashfun (maskedHash hash).1 key) t'.heap right left ∧
    r = hit (soTarget hashfun (maskedHash hash).1 key) t'.heap right

theorem soFind_returns (hg : SoGood t) (hash : Hash) (key : K) : ∃ t' r,
    Returns (soFindStep hash key) t (.withBin .readBins) t' r ∧ FindResult hash key t t' r := by
  obtain ⟨t₁, start, b, hret, hres⟩ := withBin_returns hg (maskedHash hash)
  obtain ⟨h', right, left, hfind, htidy, hbracket⟩ :=
    find_returns hres.good.wf (hres.start.left key) (hres.start.anchored hres.good)
  refine ⟨{ t₁ with heap := h' }, _,
    withBin_then SoFindPc.withBin (fun start _ => .search start .searchAgain)
    (fun t pc => soFindStep_withBin pc) hret ?_, (SoChange.heap (.tidy htidy)).good hres.good, ?_,
    right, left, hbracket, rfl⟩
  · refine hfind.embed (fun h => { t₁ with heap := h }) (SoFindPc.search start)
      (fun h pc h₁ pc₁ hs => ?_) fun h pc hs => .done ?_
    · rw [soFindStep_search, soFind, hs]
    · rw [soFindStep_search, soFind, hs]
  · exact hres.same.trans (.of_iff fun _ => htidy.present)

/-! ## What a finder with another hash function finds -/

/-- No other node stands between the place where the finder looks and the node of the key. -/
def Clear (hash : Hash) (key : K) (t : SoTable hashfun) : Prop :=
  (soTarget hashfun (maskedHash hash).1 key).lt (makeSoNode hashfun key) = false ∧
    ∀ p, Present t.heap p → (soTarget hashfun (maskedHash hash).1 key).lt p = false →
    makeSoNode hashfun key ≤ p

theorem soTarget_lt_of_hash {hash : Nat} {p : SoNode hashfun} (h : nodeHash p < hash) :
    (soTarget hashfun hash key).lt p = true := decide_eq_true (Or.inl h)

theorem Clear.same (h : SameKeys (maskedHash hash).1 t t') : Clear hash key t' ↔
    Clear hash key t := by
  refine and_congr_right fun _ => ⟨fun hc p hp hlt => hc p (h.mono p hp) hlt, fun hc p hp hlt => ?_⟩
  rcases h.dummy p hp with hp | ⟨hd, hle⟩
  · exact hc p hp hlt
  -- the dummy node of the bin is to the left of every key of the bin
  have hodd := maskedHash_odd hash
  have heven := hd.even
  have hlt' : (soTarget hashfun (maskedHash hash).1 key).lt p = true :=
    soTarget_lt_of_hash (Nat.lt_of_le_of_ne hle fun heq => by omega)
  rw [hlt'] at hlt
  cases hlt

/-- The way is clear for a finder with the hash function of the table. -/
theorem clear_own (key : K) (t : SoTable hashfun) : Clear (hashfun key) key t := by
  have ht : (soTarget hashfun (maskedHash (hashfun key)).1 key).At (makeSoNode hashfun key) :=
    soTarget_at key
  refine ⟨?_, fun p _ hlt => ?_⟩
  · rw [Bool.eq_false_iff, ne_eq, ht.lt_iff]
    exact lt_irrefl _
  · rw [Bool.eq_false_iff, ne_eq, ht.lt_iff] at hlt
    exact not_lt.mp hlt

theorem FindResult.some {r : Option Nat} (hres : FindResult hash key t t' r) (hr : r = some n) :
    soKey (t'.heap.pos n) = key ∧ Unmarked n t'.heap := by
  obtain ⟨right, left, hb, rfl⟩ := hres.bracket
  obtain ⟨hu, heq⟩ := hb.hit_some hr
  exact ⟨eq_makeSoNode.mp (soTarget_eq heq), hu⟩

theorem soTarget_eq_makeSoNode {hash : Nat} :
    (soTarget hashfun hash key).eq (makeSoNode hashfun key) = true := by
  refine Bool.and_eq_true_iff.mpr ⟨?_, decide_eq_true rfl⟩
  have hodd : nodeHash (makeSoNode hashfun key) % 2 = 1 := maskedHash_odd (hashfun key)
  simp [dummyNodeP, hodd]

/-- The finder returns a node exactly when the key is in the table and its way there is clear. -/
theorem FindResult.isSome_iff {r : Option Nat} (hres : FindResult hash key t t' r) :
    r.isSome = true ↔ HasKey t key ∧ Clear hash key t := by
  obtain ⟨right, left, hb, rfl⟩ := hres.bracket
  rw [← hres.same.quiet key, ← Clear.same hres.same]
  constructor
  · intro hsome
    obtain ⟨n, hn⟩ := Option.isSome_iff_exists.mp hsome
    obtain ⟨hu, heq⟩ := hb.hit_some hn
    obtain ⟨rfl, _⟩ := hit_eq_some hn
    have hpos := soTarget_eq heq
    refine ⟨⟨n, hu.1, hu.2, hpos⟩, ?_, ?_⟩
    · rw [← hpos]
      exact (hb.isRight n rfl).2
    rintro p ⟨k, hk, hkm, rfl⟩ hlt
    obtain ⟨m, hm, hle⟩ := hb.first hres.good.wf ⟨hk, hkm⟩ hlt
    cases hm
    rw [← hpos]
    exact hle
  · rintro ⟨⟨n, hn, hnm, hpos⟩, hlt, hclear⟩
    obtain ⟨m, rfl, hle⟩ := hb.first hres.good.wf ⟨hn, hnm⟩ (hpos ▸ hlt)
    obtain ⟨hm, hmlt⟩ := hb.isRight m rfl
    have hge := hclear _ ⟨m, hm, hb.live, rfl⟩ hmlt
    rw [hpos] at hle
    rw [hit_node, le_antisymm hle hge, if_pos soTarget_eq_makeSoNode]
    rfl

end Sbcl.Lockless
