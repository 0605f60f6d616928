import Sbcl.Lockless.SolistSpec

/-!
# What one step of a split-ordered list does

* `WithBinInv`, `ExpandInv`, `SoInsertInv`, `SoDeleteInv`, `SoFindInv` : what a thread knows, stable
  under the steps of others;
* `withBinStep_spec`, `soExpandBins_spec`, `soInsertStep_spec`, `soDeleteStep_spec`,
  `soFindStep_spec` : the change of the table, its effect on the keys, and the knowledge after it.

`W` holds of the tables the thread has seen in its call.
-/

namespace Sbcl.Lockless

open MarkedList

variable {K : Type} {hashfun : K → Hash} {hash : Hash} {key : K} {n b i start : Nat}
  {t t' : SoTable hashfun} {W W' : SoTable hashfun → Prop}

def HasKey (t : SoTable hashfun) (key : K) : Prop := Present t.heap (makeSoNode hashfun key)

/-- The same keys are in the table. -/
def Quiet (t t' : SoTable hashfun) : Prop := ∀ key, HasKey t' key ↔ HasKey t key

theorem Quiet.refl (t : SoTable hashfun) : Quiet t t := fun _ => Iff.rfl

theorem quiet_counters (t : SoTable hashfun) (count threshold : Nat) :
    Quiet t { t with count := count, threshold := threshold } := fun _ => Iff.rfl

variable {h' : Heap (SoNode hashfun)}

theorem quiet_of_tidy (ht : Tidy t.heap h') : Quiet t { t with heap := h' } :=
  fun _ => ht.present

/-- The nodes of the tables seen. -/
def HeapSeen (W : SoTable hashfun → Prop) (h : Heap (SoNode hashfun)) : Prop :=
  ∃ t, W t ∧ t.heap = h

theorem HeapSeen.mono (hW : ∀ t, W t → W' t) : ∀ h, HeapSeen W h → HeapSeen W' h :=
  fun _ ⟨t, ht, heq⟩ => ⟨t, hW t ht, heq⟩

theorem HeapSeen.of (hW : W t) : HeapSeen W t.heap := ⟨t, hW, rfl⟩

/-! ## Finding the bin -/

/-- A dummy node from which the search for a hash may start. -/
structure IsStart (hash : Nat) (t : SoTable hashfun) (start : Nat) : Prop where
  lt : start < t.heap.top
  dummy : IsDummy (t.heap.pos start)
  le : nodeHash (t.heap.pos start) ≤ hash

theorem IsStart.mono {hash : Nat} (hle : SoLe t t') (hs : IsStart hash t start) :
    IsStart hash t' start := by
  have hpos := hle.heap.pos start hs.lt
  refine ⟨Nat.lt_of_lt_of_le hs.lt hle.heap.top, ?_, ?_⟩
  · rw [hpos]
    exact hs.dummy
  · rw [hpos]
    exact hs.le

theorem IsBin.isStart (hn : IsBin t b ((t.vectors b).index hash) n) : IsStart hash.1 t n := by
  refine ⟨hn.lt, hn.dummy, ?_⟩
  rw [hn.hash]
  exact Bins.dummyHash_index_le _ _

/-- The hash of the dummy node that a bin needs. -/
abbrev binHash (t : SoTable hashfun) (b : Nat) (hash : Hash) : Nat :=
  (t.vectors b).dummyHash ((t.vectors b).index hash)

theorem binHash_congr (hle : SoLe t t') (hb : b < t.nvectors) (hash : Hash) :
    binHash t' b hash = binHash t b hash := by
  have hs := hle.shift b hb
  rw [binHash, index_congr hs, dummyHash_congr hs]

variable [LinearOrder K]

theorem quiet_of_dummy {d : SoNode hashfun} (hd : IsDummy d)
    (hl : Linked d t.heap h') : Quiet t { t with heap := h' } := by
  intro key
  refine hl.present.trans (or_iff_left ?_)
  rintro rfl
  exact WithBot.coe_ne_bot hd

theorem Linked.soChange {q : SoNode hashfun} (hl : Linked q t.heap h') :
    Change IsDummy t.heap h' := by
  obtain ⟨left, right, hlt, hnext, hlq, hqr, rfl⟩ := hl
  exact .link left right q hlt hnext hlq hqr

theorem IsStart.left (hs : IsStart (maskedHash hash).1 t start) (key : K) :
    Left (soTarget hashfun (maskedHash hash).1 key) t.heap start := by
  have heven := hs.dummy.even
  have hodd := maskedHash_odd hash
  refine ⟨hs.lt, decide_eq_true (Or.inl (Nat.lt_of_le_of_ne hs.le fun heq => ?_))⟩
  omega

theorem IsStart.anchored (hg : SoGood t) {hash : Nat} (hs : IsStart hash t start) :
    (t.heap.next start).marked = false :=
  hg.wf.fixed_live start hs.lt hs.dummy

def WithBinInv (hash : Hash) (W : SoTable hashfun → Prop) (t : SoTable hashfun) : WithBinPc → Prop
  | .readBins => True
  | .readBin b => b < t.nvectors
  | .scan b below => b < t.nvectors ∧ below ≤ (t.vectors b).index hash
  | .insertDummy b start pc =>
    b < t.nvectors ∧ Left (dummyTarget hashfun (binHash t b hash)) t.heap start ∧
      SearchInv (dummyTarget hashfun (binHash t b hash)) False (HeapSeen W) t.heap pc
  | .storeBin b node => b < t.nvectors ∧ IsBin t b ((t.vectors b).index hash) node

def WithBinPost (hash : Hash) (W : SoTable hashfun → Prop) (t : SoTable hashfun) :
    Status WithBinPc (Nat × Nat) → Prop
  | .running pc => WithBinInv hash W t pc
  | .returned (start, b) => b < t.nvectors ∧ IsStart hash.1 t start

theorem WithBinInv.le (hle : SoLe t t') {pc : WithBinPc} (hi : WithBinInv hash W t pc) :
    WithBinInv hash W t' pc := by
  cases pc with
  | readBins => trivial
  | readBin b => exact Nat.lt_of_lt_of_le hi hle.nvectors
  | scan b below =>
    refine ⟨Nat.lt_of_lt_of_le hi.1 hle.nvectors, ?_⟩
    rw [index_congr (hle.shift b hi.1)]
    exact hi.2
  | insertDummy b start pc =>
    obtain ⟨hb, hl, hs⟩ := hi
    refine ⟨Nat.lt_of_lt_of_le hb hle.nvectors, ?_⟩
    rw [binHash_congr hle hb]
    exact ⟨hl.le hle.heap, hs.le hle.heap⟩
  | storeBin b node =>
    obtain ⟨hb, hn⟩ := hi
    refine ⟨Nat.lt_of_lt_of_le hb hle.nvectors, ?_⟩
    rw [index_congr (hle.shift b hb)]
    exact hn.le hle hb

theorem WithBinInv.mono (hW : ∀ t, W t → W' t) {pc : WithBinPc} (hi : WithBinInv hash W t pc) :
    WithBinInv hash W' t pc := by
  cases pc with
  | insertDummy b start pc => exact ⟨hi.1, hi.2.1, hi.2.2.mono (HeapSeen.mono hW)⟩
  | _ => exact hi

/-- The three facts that a step of `with-bin` establishes. -/
abbrev WithBinSpec (hash : Hash) (W : SoTable hashfun → Prop) (t : SoTable hashfun)
    (r : SoTable hashfun × Status WithBinPc (Nat × Nat)) : Prop :=
  SoChange t r.1 ∧ Quiet t r.1 ∧ WithBinPost hash W r.1 r.2

theorem SoChange.same (t : SoTable hashfun) : SoChange t t := .heap (.tidy .same)

theorem withBinStep_insertDummy (pc : SearchPc) : withBinStep hash t (.insertDummy b start pc) =
    ({ t with heap := (soInsertDummy (t.vectors b) hash start t.heap pc).1 },
      match (soInsertDummy (t.vectors b) hash start t.heap pc).2 with
      | .running pc' => .running (.insertDummy b start pc')
      | .returned (node, _) => .running (.storeBin b node)) := rfl

theorem insertDummy_spec (hg : SoGood t) {pc : SearchPc}
    (hi : WithBinInv hash W t (.insertDummy b start pc))
    (hW : W t) (hW' : W (withBinStep hash t (.insertDummy b start pc)).1) :
    WithBinSpec hash W t (withBinStep hash t (.insertDummy b start pc)) := by
  obtain ⟨hb, hl, hs⟩ := hi
  have hlt := (t.vectors b).dummyHash_lt ((t.vectors b).index_lt hash)
  have heven := (t.vectors b).dummyHash_even ((t.vectors b).index hash)
  have hat := (dummyTarget_at hlt heven : (dummyTarget hashfun _).At _)
  have hpost :
    InsertPost _ _ False (HeapSeen W) t.heap (soInsertDummy (t.vectors b) hash start t.heap pc).1
      (soInsertDummy (t.vectors b) hash start t.heap pc).2 :=
    insertStep_spec hg.wf hat hl False.elim hs (HeapSeen.of hW) (HeapSeen.of hW')
  rw [withBinStep_insertDummy] at hW' ⊢
  generalize soInsertDummy (t.vectors b) hash start t.heap pc = r at hpost hW' ⊢
  obtain ⟨h', s⟩ := r
  cases s with
  | running pc' =>
    obtain ⟨ht, hs'⟩ := hpost
    exact ⟨.heap (.tidy ht), quiet_of_tidy ht, hb, hl.le ht.le, hs'⟩
  | returned r =>
    obtain ⟨node, existed⟩ := r
    cases existed with
    | true =>
      obtain ⟨rfl, hn, heq, _⟩ := hpost
      have hpos := (hat.eq_iff _).mp heq
      refine ⟨.same t, .refl t, hb, hn, ?_, ?_⟩
      · rw [hpos]
        rfl
      · rw [hpos]
        rfl
    | false =>
      obtain ⟨rfl, hlinked⟩ := hpost
      obtain ⟨⟨hn, _⟩, hpos⟩ := hlinked.node
      refine ⟨.heap hlinked.soChange, quiet_of_dummy (isDummy_makeSoDummyNode hlt heven) hlinked,
        hb, hn, ?_, ?_⟩
      · change nodeHash (h'.pos _) = _
        rw [hpos]
        rfl
      · change IsDummy (h'.pos _)
        rw [hpos]
        rfl

theorem withBinStep_spec (hg : SoGood t) {pc : WithBinPc} (hi : WithBinInv hash W t pc) (hW : W t)
    (hW' : W (withBinStep hash t pc).1) : WithBinSpec hash W t (withBinStep hash t pc) := by
  cases pc with
  | readBins => exact ⟨.same t, .refl t, hg.bins_lt⟩
  | readBin b =>
    simp only [withBinStep]
    cases hbin : (t.vectors b).bin ((t.vectors b).index hash) with
    | some start =>
      exact ⟨.same t, .refl t, hi, (hg.bin b hi _ _ hbin).2.isStart⟩
    | none =>
      exact ⟨.same t, .refl t, hi, Nat.le_refl _⟩
  | scan b below =>
    cases below with
    | zero => exact ⟨.same t, .refl t, hi⟩
    | succ i =>
      obtain ⟨hb, hle⟩ := hi
      simp only [withBinStep]
      cases hbin : (t.vectors b).bin i with
      | some start =>
        obtain ⟨_, hn⟩ := hg.bin b hb _ _ hbin
        refine ⟨.same t, .refl t, hb, ⟨hn.lt, decide_eq_true ?_⟩, trivial⟩
        rw [hn.hash]
        exact Bins.dummyHash_strictMono _ hle
      | none =>
        exact ⟨.same t, .refl t, hb, Nat.le_of_succ_le hle⟩
  | insertDummy b start pc => exact insertDummy_spec hg hi hW hW'
  | storeBin b node =>
    obtain ⟨hb, hn⟩ := hi
    simp only [withBinStep]
    cases hbin : (t.vectors b).bin ((t.vectors b).index hash) with
    | some old =>
      exact ⟨.same t, .refl t, hb, (hg.bin b hb _ _ hbin).2.isStart⟩
    | none =>
      have hchange := SoChange.setBin b _ node hb ((t.vectors b).index_lt hash) hbin hn
      exact ⟨hchange, fun _ => Iff.rfl, hb, hn.isStart.mono hchange.le⟩

/-! ## Expanding the bins -/

/-- The bins copied from the vector `b`, each as it was at one moment that has been seen. -/
structure Copying (b : Nat) (W : SoTable hashfun → Prop) (t : SoTable hashfun) (upTo : Nat)
    (new : Nat → Option Nat) : Prop where
  copied : Copied t b upTo new
  le : upTo ≤ (t.vectors b).length
  seen : ∀ k < upTo, ∃ t₀, W t₀ ∧ new (k * 2) = (t₀.vectors b).bin k

def ExpandInv (b : Nat) (W : SoTable hashfun → Prop) (t : SoTable hashfun) : ExpandPc → Prop
  | .readThreshold | .casThreshold _ => True
  | .copy i new => Copying b W t i new
  | .install new => Copying b W t (t.vectors b).length new

omit [LinearOrder K] in
theorem Copying.mono_le (hle : SoLe t t') (hb : b < t.nvectors) {upTo : Nat}
    {new : Nat → Option Nat} (hc : Copying b W t upTo new) : Copying b W t' upTo new where
  copied :=
    { old := fun j n hj => by
        obtain ⟨k, hk, hlt, hbin⟩ := hc.copied.old j n hj
        exact ⟨k, hk, hlt, hle.bin b hb k n hbin⟩
      first := hc.copied.first }
  le := by
    rw [length_congr (hle.shift b hb)]
    exact hc.le
  seen := hc.seen

omit [LinearOrder K] in
theorem ExpandInv.le (hle : SoLe t t') (hb : b < t.nvectors) {pc : ExpandPc}
    (hi : ExpandInv b W t pc) : ExpandInv b W t' pc := by
  cases pc with
  | copy i new => exact Copying.mono_le hle hb hi
  | install new =>
    rw [ExpandInv, length_congr (hle.shift b hb)]
    exact Copying.mono_le hle hb hi
  | _ => trivial

omit [LinearOrder K] in
theorem ExpandInv.mono (hW : ∀ t, W t → W' t) {pc : ExpandPc} (hi : ExpandInv b W t pc) :
    ExpandInv b W' t pc := by
  have hcopying : ∀ {upTo new}, Copying b W t upTo new → Copying b W' t upTo new := fun hc =>
    ⟨hc.copied, hc.le, fun k hk => (hc.seen k hk).imp fun _ h => ⟨hW _ h.1, h.2⟩⟩
  cases pc with
  | copy i new => exact hcopying hi
  | install new => exact hcopying hi
  | _ => trivial

theorem Copying.succ (hg : SoGood t) (hb : b < t.nvectors) (hW : W t) {new : Nat → Option Nat}
    (hc : Copying b W t i new) (hi : i < (t.vectors b).length) :
    Copying b W t (i + 1) (Function.update new (i * 2) ((t.vectors b).bin i)) where
  copied :=
    { old := fun j n hj => by
        by_cases hji : j = i * 2
        · subst hji
          rw [Function.update_self] at hj
          exact ⟨i, rfl, Nat.lt_succ_self i, hj⟩
        · rw [Function.update_of_ne hji] at hj
          obtain ⟨k, hk, hlt, hbin⟩ := hc.copied.old j n hj
          exact ⟨k, hk, Nat.lt_succ_of_lt hlt, hbin⟩
      first := fun _ => by
        cases i with
        | zero =>
          rw [Nat.zero_mul, Function.update_self]
          exact hg.first b hb
        | succ i =>
          rw [Function.update_of_ne (by omega)]
          exact hc.copied.first (Nat.succ_pos i) }
  le := hi
  seen k hk := by
    rcases Nat.lt_succ_iff_lt_or_eq.mp hk with hk | rfl
    · rw [Function.update_of_ne (by omega)]
      exact hc.seen k hk
    · rw [Function.update_self]
      exact ⟨t, hW, rfl⟩

def ExpandPost (b : Nat) (W : SoTable hashfun → Prop) (t : SoTable hashfun) :
    Status ExpandPc Unit → Prop
  | .running pc => ExpandInv b W t pc
  | .returned () => True

theorem soExpandBins_spec (hg : SoGood t) (hb : b < t.nvectors) {pc : ExpandPc}
    (hi : ExpandInv b W t pc)
    (hW : W t) : SoChange t (soExpandBins b t pc).1 ∧ Quiet t (soExpandBins b t pc).1 ∧
      ExpandPost b W (soExpandBins b t pc).1 (soExpandBins b t pc).2 := by
  cases pc with
  | readThreshold =>
    simp only [soExpandBins]
    split
    · exact ⟨.same t, .refl t, trivial⟩
    · split <;> exact ⟨.same t, .refl t, trivial⟩
  | casThreshold curThreshold =>
    simp only [soExpandBins]
    split
    · refine ⟨.counters _ _, fun _ => Iff.rfl, ⟨nofun, nofun⟩, Nat.zero_le _, ?_⟩
      intro k hk
      cases hk
    · exact ⟨.same t, .refl t, trivial⟩
  | copy i new =>
    by_cases hlt : i < (t.vectors b).length
    · simp only [soExpandBins, if_pos hlt]
      exact ⟨.same t, .refl t, Copying.succ hg hb hW hi hlt⟩
    have hc : Copying b W t i new := hi
    obtain rfl : i = (t.vectors b).length := Nat.le_antisymm hc.le (Nat.not_lt.mp hlt)
    simp only [soExpandBins, if_neg hlt]
    exact ⟨.same t, .refl t, hc⟩
  | install new =>
    by_cases hshift : 1 < (t.vectors b).shift
    · by_cases hslot : t.bins = b
      · subst hslot
        simp only [soExpandBins, dif_pos hshift, if_pos]
        exact ⟨.publish hshift new hi.copied, fun _ => Iff.rfl, trivial⟩
      · simp only [soExpandBins, dif_pos hshift, if_neg hslot]
        exact ⟨.same t, .refl t, trivial⟩
    · simp only [soExpandBins, dif_neg hshift]
      exact ⟨.same t, .refl t, trivial⟩

/-! ## Inserting -/

/-- The node of the key, and the moment at which it was seen unmarked. -/
structure HasNode (key : K) (W : SoTable hashfun → Prop) (t : SoTable hashfun) (n : Nat) :
    Prop where
  lt : n < t.heap.top
  pos : t.heap.pos n = makeSoNode hashfun key
  saw : Saw (HeapSeen W) t.heap (Unmarked n)

omit [LinearOrder K] in
theorem HasNode.le (hle : Le t.heap t'.heap) (hn : HasNode key W t n) : HasNode key W t' n where
  lt := Nat.lt_of_lt_of_le hn.lt hle.top
  pos := (hle.pos n hn.lt).trans hn.pos
  saw := hn.saw.le hle

omit [LinearOrder K] in
theorem HasNode.mono (hW : ∀ t, W t → W' t) (hn : HasNode key W t n) : HasNode key W' t n :=
  ⟨hn.lt, hn.pos, hn.saw.mono (HeapSeen.mono hW)⟩

def SoInsertInv (key : K) (W : SoTable hashfun → Prop) (t : SoTable hashfun) : SoInsertPc → Prop
  | .withBin pc => WithBinInv (maskedHash (hashfun key)) W t pc
  | .put start b pc =>
    b < t.nvectors ∧ IsStart (maskedHash (hashfun key)).1 t start ∧
      SearchInv (soTarget hashfun (maskedHash (hashfun key)).1 key) False (HeapSeen W) t.heap pc
  | .incf b node | .checkThreshold b node _ => b < t.nvectors ∧ HasNode key W t node
  | .expand b node pc => b < t.nvectors ∧ HasNode key W t node ∧ ExpandInv b W t pc

/-- The node of the key is linked. -/
def SoInsertPc.Linked : SoInsertPc → Prop
  | .withBin _ | .put _ _ _ => False
  | .incf _ _ | .checkThreshold _ _ _ | .expand _ _ _ => True

theorem SoInsertInv.le (hle : SoLe t t') {pc : SoInsertPc} (hi : SoInsertInv key W t pc) :
    SoInsertInv key W t' pc := by
  cases pc with
  | withBin pc => exact WithBinInv.le hle hi
  | put start b pc => exact ⟨Nat.lt_of_lt_of_le hi.1 hle.nvectors, hi.2.1.mono hle,
    hi.2.2.le hle.heap⟩
  | incf | checkThreshold => exact ⟨Nat.lt_of_lt_of_le hi.1 hle.nvectors, hi.2.le hle.heap⟩
  | expand b node pc =>
    exact ⟨Nat.lt_of_lt_of_le hi.1 hle.nvectors, hi.2.1.le hle.heap, hi.2.2.le hle hi.1⟩

theorem SoInsertInv.mono (hW : ∀ t, W t → W' t) {pc : SoInsertPc} (hi : SoInsertInv key W t pc) :
    SoInsertInv key W' t pc := by
  cases pc with
  | withBin pc => exact WithBinInv.mono hW hi
  | put start b pc => exact ⟨hi.1, hi.2.1, hi.2.2.mono (HeapSeen.mono hW)⟩
  | incf b node => exact ⟨hi.1, hi.2.mono hW⟩
  | checkThreshold b node count => exact ⟨hi.1, hi.2.mono hW⟩
  | expand b node pc => exact ⟨hi.1, hi.2.1.mono hW, hi.2.2.mono hW⟩

/-- An insert changes the keys only at the step that links its node. -/
def SoInsertPost (key : K) (W : SoTable hashfun → Prop) (t t' : SoTable hashfun) (pc : SoInsertPc) :
    Status SoInsertPc (Nat × Bool) → Prop
  | .running pc' =>
    SoInsertInv key W t' pc' ∧ ((Quiet t t' ∧ (pc'.Linked ↔ pc.Linked)) ∨
      (¬ pc.Linked ∧ pc'.Linked ∧ Linked (makeSoNode hashfun key) t.heap t'.heap))
  | .returned (n, existed) => Quiet t t' ∧ HasNode key W t' n ∧ (existed = false ↔ pc.Linked)

theorem soInsertStep_withBin (pc : WithBinPc) : soInsertStep key t (.withBin pc) =
    ((withBinStep (maskedHash (hashfun key)) t pc).1, .running
      (match (withBinStep (maskedHash (hashfun key)) t pc).2 with
      | .running pc' => .withBin pc'
      | .returned (start, b) => .put start b .searchAgain)) := rfl

theorem soInsertStep_put (pc : SearchPc) : soInsertStep key t (.put start b pc) =
    ({ t with heap := (soPut key start t.heap pc).1 },
      match (soPut key start t.heap pc).2 with
      | .running pc' => .running (.put start b pc')
      | .returned (node, true) => .returned (node, true)
      | .returned (node, false) => .running (.incf b node)) := rfl

theorem soInsertStep_expand (pc : ExpandPc) : soInsertStep key t (.expand b n pc) =
    ((soExpandBins b t pc).1,
      match (soExpandBins b t pc).2 with
      | .running pc' => .running (.expand b n pc')
      | .returned () => .returned (n, false)) := rfl

theorem soInsertStep_spec (hg : SoGood t) {pc : SoInsertPc} (hi : SoInsertInv key W t pc) (hW : W t)
    (hW' : W (soInsertStep key t pc).1) : SoChange t (soInsertStep key t pc).1 ∧
      SoInsertPost key W t (soInsertStep key t pc).1 pc (soInsertStep key t pc).2 := by
  cases pc with
  | withBin pc =>
    rw [soInsertStep_withBin] at hW' ⊢
    obtain ⟨hc, hq, hpost⟩ := withBinStep_spec hg hi hW hW'
    generalize withBinStep (maskedHash (hashfun key)) t pc = r at hc hq hpost ⊢
    obtain ⟨t', s⟩ := r
    cases s with
    | running pc' => exact ⟨hc, hpost, Or.inl ⟨hq, Iff.rfl⟩⟩
    | returned r => exact ⟨hc, ⟨hpost.1, hpost.2, trivial⟩, Or.inl ⟨hq, Iff.rfl⟩⟩
  | put start b pc =>
    obtain ⟨hb, hstart, hs⟩ := hi
    have hpost : InsertPost _ _ False (HeapSeen W) t.heap (soPut key start t.heap pc).1
        (soPut key start t.heap pc).2 :=
      insertStep_spec hg.wf (soTarget_at key) (hstart.left key) False.elim hs (HeapSeen.of hW)
        (HeapSeen.of hW')
    rw [soInsertStep_put] at hW' ⊢
    generalize soPut key start t.heap pc = r at hpost hW' ⊢
    obtain ⟨h', s⟩ := r
    cases s with
    | running pc' =>
      obtain ⟨ht, hs'⟩ := hpost
      have hle : SoLe t { t with heap := h' } := .of_heap ht.le
      exact ⟨.heap (.tidy ht), ⟨hb, hstart.mono hle, hs'⟩, Or.inl ⟨quiet_of_tidy ht, Iff.rfl⟩⟩
    | returned r =>
      obtain ⟨node, existed⟩ := r
      cases existed with
      | true =>
        obtain ⟨rfl, hn, heq, hsaw⟩ := hpost
        exact ⟨.same t, .refl t, ⟨hn, ((soTarget_at key).eq_iff _).mp heq, hsaw⟩, nofun, nofun⟩
      | false =>
        obtain ⟨rfl, hlinked⟩ := hpost
        obtain ⟨hu, hpos⟩ := hlinked.node
        have hseen : HeapSeen W h' := HeapSeen.of hW'
        exact ⟨.heap hlinked.soChange, ⟨hb, hu.1, hpos, Saw.now hseen hu⟩,
          Or.inr ⟨id, trivial, hlinked⟩⟩
  | incf b node =>
    exact ⟨.counters _ _, ⟨hi.1, hi.2.lt, hi.2.pos, hi.2.saw⟩,
      Or.inl ⟨quiet_counters t _ _, Iff.rfl⟩⟩
  | checkThreshold b node count =>
    simp only [soInsertStep]
    split
    · exact ⟨.same t, ⟨hi.1, hi.2, trivial⟩, Or.inl ⟨.refl t, Iff.rfl⟩⟩
    · exact ⟨.same t, .refl t, hi.2, fun _ => trivial, fun _ => rfl⟩
  | expand b node pc =>
    obtain ⟨hb, hn, he⟩ := hi
    rw [soInsertStep_expand] at hW' ⊢
    obtain ⟨hc, hq, hpost⟩ := soExpandBins_spec hg hb he hW
    generalize soExpandBins b t pc = r at hc hq hpost ⊢
    obtain ⟨t', s⟩ := r
    have hle := hc.le
    cases s with
    | running pc' =>
      exact ⟨hc, ⟨Nat.lt_of_lt_of_le hb hle.nvectors, hn.le hle.heap, hpost⟩, Or.inl ⟨hq, Iff.rfl⟩⟩
    | returned r => exact ⟨hc, hq, hn.le hle.heap, fun _ => trivial, fun _ => rfl⟩

/-! ## Deleting -/

def SoDeleteInv (key : K) (W : SoTable hashfun → Prop) (t : SoTable hashfun) : SoDeletePc → Prop
  | .withBin pc => WithBinInv (maskedHash (hashfun key)) W t pc
  | .delete start pc =>
    IsStart (maskedHash (hashfun key)).1 t start ∧
      DeleteInv (soTarget hashfun (maskedHash (hashfun key)).1 key) True (HeapSeen W) t.heap pc
  | .decf => True

/-- The node of the key is marked. -/
def SoDeletePc.Marked : SoDeletePc → Prop
  | .withBin _ => False
  | .delete _ pc => pc.Marked
  | .decf => True

theorem SoDeleteInv.le (hle : SoLe t t') {pc : SoDeletePc} (hi : SoDeleteInv key W t pc) :
    SoDeleteInv key W t' pc := by
  cases pc with
  | withBin pc => exact WithBinInv.le hle hi
  | delete start pc => exact ⟨hi.1.mono hle, hi.2.le hle.heap⟩
  | decf => trivial

theorem SoDeleteInv.mono (hW : ∀ t, W t → W' t) {pc : SoDeletePc} (hi : SoDeleteInv key W t pc) :
    SoDeleteInv key W' t pc := by
  cases pc with
  | withBin pc => exact WithBinInv.mono hW hi
  | delete start pc => exact ⟨hi.1, hi.2.mono (HeapSeen.mono hW)⟩
  | decf => trivial

/-- The search for the key ended between two adjacent nodes. -/
def SawAbsent (hash : Hash) (key : K) (W : SoTable hashfun → Prop) (t : SoTable hashfun) : Prop :=
  Saw (HeapSeen W) t.heap (NotFound (soTarget hashfun (maskedHash hash).1 key))

/-- A delete changes the keys only at the step that marks its node. -/
def SoDeletePost (key : K) (W : SoTable hashfun → Prop) (t t' : SoTable hashfun) (pc : SoDeletePc) :
    Status SoDeletePc Bool → Prop
  | .running pc' =>
    SoDeleteInv key W t' pc' ∧ ((Quiet t t' ∧ (pc'.Marked ↔ pc.Marked)) ∨
      (¬ pc.Marked ∧ pc'.Marked ∧ ∃ n, Marks (makeSoNode hashfun key) n t.heap t'.heap))
  | .returned true => Quiet t t' ∧ pc.Marked
  | .returned false => Quiet t t' ∧ ¬ pc.Marked ∧ SawAbsent (hashfun key) key W t'

theorem soDeleteStep_withBin (pc : WithBinPc) : soDeleteStep key t (.withBin pc) =
    ((withBinStep (maskedHash (hashfun key)) t pc).1, .running
      (match (withBinStep (maskedHash (hashfun key)) t pc).2 with
      | .running pc' => .withBin pc'
      | .returned (start, _) => .delete start (.search .searchAgain))) := rfl

abbrev soDelete (key : K) (start : Nat) (h : Heap (SoNode hashfun)) (pc : DeletePc) :
    Heap (SoNode hashfun) × Status DeletePc Bool :=
  deleteStep (soTarget hashfun (maskedHash (hashfun key)).1 key) start start h pc

theorem soDeleteStep_delete (pc : DeletePc) : soDeleteStep key t (.delete start pc) =
    ({ t with heap := (soDelete key start t.heap pc).1 },
      match (soDelete key start t.heap pc).2 with
      | .running pc' => .running (.delete start pc')
      | .returned true => .running .decf
      | .returned false => .returned false) := rfl

omit [LinearOrder K] in
theorem not_isDummy_makeSoNode : ¬ IsDummy (makeSoNode hashfun key) := WithBot.coe_ne_bot

theorem Marks.soChange (hm : Marks (makeSoNode hashfun key) n t.heap h') :
    Change IsDummy t.heap h' := by
  obtain ⟨⟨hn, hnm⟩, hpos, rfl⟩ := hm
  refine .mark n hn ?_ hnm
  rw [hpos]
  exact not_isDummy_makeSoNode

theorem soDeleteStep_spec (hg : SoGood t) {pc : SoDeletePc} (hi : SoDeleteInv key W t pc) (hW : W t)
    (hW' : W (soDeleteStep key t pc).1) : SoChange t (soDeleteStep key t pc).1 ∧
      SoDeletePost key W t (soDeleteStep key t pc).1 pc (soDeleteStep key t pc).2 := by
  cases pc with
  | withBin pc =>
    rw [soDeleteStep_withBin] at hW' ⊢
    obtain ⟨hc, hq, hpost⟩ := withBinStep_spec hg hi hW hW'
    generalize withBinStep (maskedHash (hashfun key)) t pc = r at hc hq hpost ⊢
    obtain ⟨t', s⟩ := r
    cases s with
    | running pc' => exact ⟨hc, hpost, Or.inl ⟨hq, Iff.rfl⟩⟩
    | returned r => exact ⟨hc, ⟨hpost.2, trivial⟩, Or.inl ⟨hq, Iff.rfl⟩⟩
  | delete start pc =>
    obtain ⟨hstart, hd⟩ := hi
    have hanch := hstart.anchored hg
    have hpost : DeletePost _ _ True (HeapSeen W) t.heap (soDelete key start t.heap pc).1 pc
        (soDelete key start t.heap pc).2 :=
      deleteStep_spec hg.wf (soTarget_at key) (hstart.left key) (fun _ => hanch) (hstart.left key)
        (fun _ => hanch) hd (HeapSeen.of hW) (HeapSeen.of hW')
    rw [soDeleteStep_delete] at hW' ⊢
    generalize soDelete key start t.heap pc = r at hpost hW' ⊢
    obtain ⟨h', s⟩ := r
    cases s with
    | running pc' =>
      obtain ⟨hd', ⟨ht, hiff⟩ | ⟨hpc, hpc', n, hm⟩⟩ := hpost
      · have hle : SoLe t { t with heap := h' } := .of_heap ht.le
        exact ⟨.heap (.tidy ht), ⟨hstart.mono hle, hd'⟩, Or.inl ⟨quiet_of_tidy ht, hiff⟩⟩
      · have hle : SoLe t { t with heap := h' } := .of_heap hm.soChange.le
        exact ⟨.heap hm.soChange, ⟨hstart.mono hle, hd'⟩, Or.inr ⟨hpc, hpc', n, hm⟩⟩
    | returned r =>
      cases r with
      | true =>
        obtain ⟨ht, hpc⟩ := hpost
        exact ⟨.heap (.tidy ht), trivial, Or.inl ⟨quiet_of_tidy ht, fun _ => hpc, fun _ => trivial⟩⟩
      | false =>
        obtain ⟨rfl, hpc, hs⟩ := hpost
        exact ⟨.same t, .refl t, hpc, hs trivial⟩
  | decf => exact ⟨.counters _ _, quiet_counters t _ _, trivial⟩

/-! ## Finding -/

def SoFindInv (hash : Hash) (key : K) (W : SoTable hashfun → Prop)
    (t : SoTable hashfun) : SoFindPc → Prop
  | .withBin pc => WithBinInv (maskedHash hash) W t pc
  | .search start pc =>
    IsStart (maskedHash hash).1 t start ∧
      SearchInv (soTarget hashfun (maskedHash hash).1 key) True (HeapSeen W) t.heap pc

theorem SoFindInv.le (hle : SoLe t t') {pc : SoFindPc} (hi : SoFindInv hash key W t pc) :
    SoFindInv hash key W t' pc := by
  cases pc with
  | withBin pc => exact WithBinInv.le hle hi
  | search start pc => exact ⟨hi.1.mono hle, hi.2.le hle.heap⟩

theorem SoFindInv.mono (hW : ∀ t, W t → W' t) {pc : SoFindPc} (hi : SoFindInv hash key W t pc) :
    SoFindInv hash key W' t pc := by
  cases pc with
  | withBin pc => exact WithBinInv.mono hW hi
  | search start pc => exact ⟨hi.1, hi.2.mono (HeapSeen.mono hW)⟩

def SoFindPost (hash : Hash) (key : K) (W : SoTable hashfun → Prop) (t : SoTable hashfun) :
    Status SoFindPc (Option Nat) → Prop
  | .running pc => SoFindInv hash key W t pc
  | .returned (some n) => HasNode key W t n
  | .returned none => SawAbsent hash key W t

theorem soFindStep_withBin (pc : WithBinPc) : soFindStep hash key t (.withBin pc) =
    ((withBinStep (maskedHash hash) t pc).1, .running
      (match (withBinStep (maskedHash hash) t pc).2 with
      | .running pc' => .withBin pc'
      | .returned (start, _) => .search start .searchAgain)) := rfl

/-- The search of `so-find`. -/
abbrev soFind (hash : Hash) (key : K) (start : Nat) (h : Heap (SoNode hashfun)) (pc : SearchPc) :
    Heap (SoNode hashfun) × Status SearchPc (Option Nat) :=
  findStep (soTarget hashfun (maskedHash hash).1 key) start h pc

theorem soFindStep_search (pc : SearchPc) : soFindStep hash key t (.search start pc) =
    ({ t with heap := (soFind hash key start t.heap pc).1 },
      match (soFind hash key start t.heap pc).2 with
      | .running pc' => .running (.search start pc')
      | .returned r => .returned r) := rfl

/-- The finder compares only the key, whatever hash it has searched for. -/
theorem soTarget_eq {hash : Nat} {p : SoNode hashfun}
    (heq : (soTarget hashfun hash key).eq p = true) : p = makeSoNode hashfun key := by
  rw [eq_makeSoNode]
  exact of_decide_eq_true (Bool.and_eq_true_iff.mp heq).2

theorem soFindStep_spec (hg : SoGood t) {pc : SoFindPc} (hi : SoFindInv hash key W t pc) (hW : W t)
    (hW' : W (soFindStep hash key t pc).1) : SoChange t (soFindStep hash key t pc).1 ∧
      Quiet t (soFindStep hash key t pc).1 ∧
      SoFindPost hash key W (soFindStep hash key t pc).1 (soFindStep hash key t pc).2 := by
  cases pc with
  | withBin pc =>
    rw [soFindStep_withBin] at hW' ⊢
    obtain ⟨hc, hq, hpost⟩ := withBinStep_spec hg hi hW hW'
    generalize withBinStep (maskedHash hash) t pc = r at hc hq hpost ⊢
    obtain ⟨t', s⟩ := r
    cases s with
    | running pc' => exact ⟨hc, hq, hpost⟩
    | returned r => exact ⟨hc, hq, hpost.2, trivial⟩
  | search start pc =>
    obtain ⟨hstart, hs⟩ := hi
    have hanch := hstart.anchored hg
    have hpost : FindPost _ True (HeapSeen W) t.heap (soFind hash key start t.heap pc).1
        (soFind hash key start t.heap pc).2 :=
      findStep_spec hg.wf (hstart.left key) (fun _ => hanch) hs (HeapSeen.of hW) (HeapSeen.of hW')
    rw [soFindStep_search] at hW' ⊢
    generalize soFind hash key start t.heap pc = r at hpost hW' ⊢
    obtain ⟨h', s⟩ := r
    cases s with
    | running pc' =>
      obtain ⟨ht, hs'⟩ := hpost
      have hle : SoLe t { t with heap := h' } := .of_heap ht.le
      exact ⟨.heap (.tidy ht), quiet_of_tidy ht, hstart.mono hle, hs'⟩
    | returned r =>
      cases r with
      | none =>
        obtain ⟨rfl, hs⟩ := hpost
        exact ⟨.same t, .refl t, hs trivial⟩
      | some n =>
        obtain ⟨rfl, hn, heq, hsaw⟩ := hpost
        exact ⟨.same t, .refl t, hn, soTarget_eq heq, hsaw⟩

end Sbcl.Lockless
