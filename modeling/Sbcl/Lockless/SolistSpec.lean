import Sbcl.Lockless.LflistSpec
import Sbcl.Lockless.Solist

/-!
# The invariant of a split-ordered list

* `SoGood` : the invariant of a table, with the bins it has and had;
* `SoChange` : what one atomic step may do to a table, with `SoChange.good`; `SoLe` : what survives
  it;
* `dummyTarget_at`, `soTarget_at` : the comparisons of the two kinds of search are those of one
  position.
-/

namespace Sbcl.Lockless

open MarkedList Nat

variable {K : Type} {hashfun : K → Hash} {hash : Nat} {key : K} {n b i : Nat}

/-- Dummy nodes are never deleted. -/
def IsDummy (p : SoNode hashfun) : Prop := soKey p = ⊥

theorem isDummy_makeSoDummyNode (hlt : hash < 2 ^ hashNbits) (heven : hash % 2 = 0) :
    IsDummy (makeSoDummyNode hashfun hash hlt heven) := rfl

theorem IsDummy.even {p : SoNode hashfun} (hd : IsDummy p) : nodeHash p % 2 = 0 := p.2.dummy hd

theorem nodeHash_of_key {p : SoNode hashfun} (hk : soKey p = key) :
    nodeHash p = (maskedHash (hashfun key)).1 :=
  p.2.ordinary key hk

theorem isDummy_of_even {p : SoNode hashfun} (he : nodeHash p % 2 = 0) : IsDummy p := by
  refine Classical.byContradiction fun hk => ?_
  obtain ⟨k, hk⟩ := WithBot.ne_bot_iff_exists.mp hk
  have hodd := maskedHash_odd (hashfun k)
  rw [← nodeHash_of_key hk.symm] at hodd
  omega

theorem soNode_ext {p q : SoNode hashfun} (hh : nodeHash p = nodeHash q)
    (hk : soKey p = soKey q) : p = q :=
  Subtype.ext (congrArg toLex (Prod.ext hh hk))

theorem eq_makeSoNode {p : SoNode hashfun} : p = makeSoNode hashfun key ↔ soKey p = key := by
  constructor
  · rintro rfl
    rfl
  · intro hk
    exact soNode_ext (nodeHash_of_key hk) hk

/-! ## Tables -/

variable {t t' t'' : SoTable hashfun}

/-- The dummy node of bin `i` of the vector `b`. -/
structure IsBin (t : SoTable hashfun) (b i n : Nat) : Prop where
  lt : n < t.heap.top
  hash : nodeHash (t.heap.pos n) = (t.vectors b).dummyHash i
  dummy : IsDummy (t.heap.pos n)

/-- What survives every step: nodes as in `Le`, and bins once they are initialized. -/
structure SoLe (t t' : SoTable hashfun) : Prop where
  heap : Le t.heap t'.heap
  nvectors : t.nvectors ≤ t'.nvectors
  shift : ∀ b < t.nvectors, (t'.vectors b).shift = (t.vectors b).shift
  bin : ∀ b < t.nvectors, ∀ i n, (t.vectors b).bin i = some n → (t'.vectors b).bin i = some n

theorem SoLe.refl (t : SoTable hashfun) : SoLe t t :=
  ⟨Le.refl _, Nat.le_refl _, fun _ _ => rfl, fun _ _ _ _ h => h⟩

theorem SoLe.trans (h12 : SoLe t t') (h23 : SoLe t' t'') : SoLe t t'' where
  heap := h12.heap.trans h23.heap
  nvectors := Nat.le_trans h12.nvectors h23.nvectors
  shift b hb := (h23.shift b (Nat.lt_of_lt_of_le hb h12.nvectors)).trans (h12.shift b hb)
  bin b hb i n hn := h23.bin b (Nat.lt_of_lt_of_le hb h12.nvectors) i n (h12.bin b hb i n hn)

theorem SoLe.of_heap {h' : Heap (SoNode hashfun)} (hle : Le t.heap h') :
    SoLe t { t with heap := h' } :=
  ⟨hle, Nat.le_refl _, fun _ _ => rfl, fun _ _ _ _ h => h⟩

theorem length_congr {b b' : Bins} (hs : b.shift = b'.shift) : b.length = b'.length := by
  rw [Bins.length, hs, Bins.length]

theorem index_congr {b b' : Bins} (hs : b.shift = b'.shift) (hash : Hash) :
    b.index hash = b'.index hash := by
  rw [Bins.index, hs, Bins.index]

theorem dummyHash_congr {b b' : Bins} (hs : b.shift = b'.shift) (i : Nat) :
    b.dummyHash i = b'.dummyHash i := by
  rw [Bins.dummyHash, hs, Bins.dummyHash]

theorem IsBin.le (hle : SoLe t t') (hb : b < t.nvectors) (hn : IsBin t b i n) : IsBin t' b i n := by
  have hpos := hle.heap.pos n hn.lt
  refine ⟨Nat.lt_of_lt_of_le hn.lt hle.heap.top, ?_, ?_⟩
  · rw [hpos, hn.hash, dummyHash_congr (hle.shift b hb)]
  · rw [hpos]
    exact hn.dummy

/-- The bins of a doubled vector: old bin `i` is new bin `2 * i`. -/
structure Copied (t : SoTable hashfun) (b upTo : Nat) (new : Nat → Option Nat) : Prop where
  old : ∀ j n, new j = some n → ∃ k, j = k * 2 ∧ k < upTo ∧ (t.vectors b).bin k = some n
  first : 0 < upTo → new 0 = some soHead

theorem SoTable.setBin_vectors_of_ne (t : SoTable hashfun) {c : Nat} (hc : c ≠ b) :
    (t.setBin b i n).vectors c = t.vectors c := by
  simp [SoTable.setBin, hc]

@[simp] theorem SoTable.setBin_vectors_self (t : SoTable hashfun) :
    (t.setBin b i n).vectors b = (t.vectors b).setBin i n := by
  simp [SoTable.setBin]

theorem SoTable.publish_vectors_of_lt (t : SoTable hashfun) (v : Bins) (hb : b < t.nvectors) :
    (t.publish v).vectors b = t.vectors b := by
  simp [SoTable.publish, Nat.ne_of_lt hb]

@[simp] theorem SoTable.publish_vectors_new (t : SoTable hashfun) (v : Bins) :
    (t.publish v).vectors t.nvectors = v := by
  simp [SoTable.publish]

variable [LinearOrder K]

structure SoGood (t : SoTable hashfun) : Prop where
  wf : WF IsDummy soHead t.heap
  slot : t.bins + 1 = t.nvectors
  bin : ∀ b < t.nvectors, ∀ i n, (t.vectors b).bin i = some n →
    i < (t.vectors b).length ∧ IsBin t b i n
  first : ∀ b < t.nvectors, (t.vectors b).bin 0 = some soHead
  halved : ∀ b, b + 1 < t.nvectors → (t.vectors b).shift = (t.vectors (b + 1)).shift + 1

theorem SoGood.bins_lt (hg : SoGood t) : t.bins < t.nvectors := hg.slot ▸ lt_succ_self _

inductive SoChange (t : SoTable hashfun) : SoTable hashfun → Prop
  | heap {h' : Heap (SoNode hashfun)} : Change IsDummy t.heap h' → SoChange t { t with heap := h' }
  | counters (count threshold : Nat) : SoChange t { t with count := count, threshold := threshold }
  | setBin (b i n : Nat) : b < t.nvectors → i < (t.vectors b).length → (t.vectors b).bin i = none →
      IsBin t b i n → SoChange t (t.setBin b i n)
  | publish (hshift : 1 < (t.vectors t.bins).shift) (new : Nat → Option Nat) :
      Copied t t.bins (t.vectors t.bins).length new →
        SoChange t (t.publish ((t.vectors t.bins).doubled hshift new))

theorem SoChange.le (hc : SoChange t t') : SoLe t t' := by
  cases hc with
  | heap hc => exact .of_heap hc.le
  | counters count threshold => exact ⟨Le.refl _, Nat.le_refl _, fun _ _ => rfl, fun _ _ _ _ h => h⟩
  | setBin b i n hb hi hnone hn =>
    refine ⟨Le.refl _, Nat.le_refl _, fun c hc => ?_, fun c hc j m hj => ?_⟩
    · by_cases hcb : c = b
      · rw [hcb, SoTable.setBin_vectors_self, Bins.setBin_shift]
      · rw [SoTable.setBin_vectors_of_ne t hcb]
    by_cases hcb : c = b
    · subst hcb
      rw [SoTable.setBin_vectors_self, Bins.setBin_of_ne]
      · exact hj
      · rintro rfl
        rw [hj] at hnone
        cases hnone
    · rw [SoTable.setBin_vectors_of_ne t hcb]
      exact hj
  | publish hshift new hcopied =>
    refine ⟨Le.refl _, le_succ _, fun c hc => ?_, fun c hc j m hj => ?_⟩
    · rw [SoTable.publish_vectors_of_lt t _ hc]
    · rw [SoTable.publish_vectors_of_lt t _ hc]
      exact hj

theorem SoChange.good (hc : SoChange t t') (hg : SoGood t) : SoGood t' := by
  have hle := hc.le
  cases hc with
  | heap hc =>
    refine ⟨hc.wf hg.wf, hg.slot, fun b hb i n hn => ?_, hg.first, hg.halved⟩
    obtain ⟨hi, hbin⟩ := hg.bin b hb i n hn
    exact ⟨hi, hbin.le hle hb⟩
  | counters count threshold =>
    refine ⟨hg.wf, hg.slot, fun b hb i n hn => ?_, hg.first, hg.halved⟩
    obtain ⟨hi, hbin⟩ := hg.bin b hb i n hn
    exact ⟨hi, hbin.le hle hb⟩
  | setBin b i n hb hi hnone hn =>
    refine ⟨hg.wf, hg.slot, fun c hc j m hj => ?_,
      fun c hc => hle.bin c hc 0 soHead (hg.first c hc), ?_⟩
    · have hlen := length_congr (hle.shift c hc)
      rw [hlen]
      by_cases hcb : c = b
      · subst hcb
        rw [SoTable.setBin_vectors_self] at hj
        by_cases hji : j = i
        · subst hji
          rw [Bins.setBin_self] at hj
          cases hj
          exact ⟨hi, hn.le hle hb⟩
        · rw [Bins.setBin_of_ne _ _ hji] at hj
          obtain ⟨hj', hbin⟩ := hg.bin c hc j m hj
          exact ⟨hj', hbin.le hle hc⟩
      · rw [SoTable.setBin_vectors_of_ne t hcb] at hj
        obtain ⟨hj', hbin⟩ := hg.bin c hc j m hj
        exact ⟨hj', hbin.le hle hc⟩
    · intro c hc
      rw [hle.shift c (lt_of_succ_lt hc), hle.shift (c + 1) hc]
      exact hg.halved c hc
  | publish hshift new hcopied =>
    have hslot := hg.slot
    have hold : ∀ {c}, c < t.nvectors + 1 → c < t.nvectors ∨ c = t.nvectors := fun h =>
      Nat.lt_succ_iff_lt_or_eq.mp h
    refine ⟨hg.wf, rfl, fun c hc j m hj => ?_, fun c hc => ?_, fun c hc => ?_⟩
    · rcases hold hc with hc | rfl
      · rw [SoTable.publish_vectors_of_lt t _ hc] at hj ⊢
        obtain ⟨hj', hbin⟩ := hg.bin c hc j m hj
        exact ⟨hj', hbin.le hle hc⟩
      rw [SoTable.publish_vectors_new, Bins.doubled_bin] at hj
      obtain ⟨k, rfl, hk, hbin⟩ := hcopied.old j m hj
      obtain ⟨_, hm⟩ := hg.bin t.bins hg.bins_lt k m hbin
      rw [SoTable.publish_vectors_new, Bins.doubled_length]
      refine ⟨by omega, hm.lt, ?_, hm.dummy⟩
      rw [SoTable.publish_vectors_new, Nat.mul_comm, Bins.doubled_dummyHash]
      exact hm.hash
    · rcases hold hc with hc | rfl
      · rw [SoTable.publish_vectors_of_lt t _ hc]
        exact hg.first c hc
      · rw [SoTable.publish_vectors_new, Bins.doubled_bin]
        exact hcopied.first (Nat.two_pow_pos _)
    · rcases hold hc with hc | hc
      · rw [SoTable.publish_vectors_of_lt t _ hc,
          SoTable.publish_vectors_of_lt t _ (lt_of_succ_lt hc)]
        exact hg.halved c hc
      · obtain rfl : c = t.bins := by omega
        rw [hc, SoTable.publish_vectors_new, SoTable.publish_vectors_of_lt t _ hg.bins_lt,
          Bins.doubled_shift]
        omega

theorem makeSoList_good (hashfun : K → Hash) (eltsPerBin : Nat) :
    SoGood (makeSoList hashfun eltsPerBin) where
  wf := by
    refine ⟨Nat.one_pos, rfl, fun _ _ _ => rfl, ?_, fun n hn _ => ?_⟩
    · rintro n hn m ⟨⟩
    · obtain rfl : n = 0 := lt_one_iff.mp hn
      exact .refl
  slot := rfl
  bin b hb i n hn := by
    by_cases hi : i = 0
    · subst hi
      obtain rfl : soHead = n := by simpa [makeSoList] using hn
      exact ⟨Nat.two_pow_pos _, Nat.one_pos, rfl, rfl⟩
    · simp [makeSoList, hi] at hn
  first b hb := rfl
  halved b hb := absurd (lt_one_iff.mp hb) (succ_ne_zero b)

theorem dummyTarget_at (hlt : hash < 2 ^ hashNbits) (heven : hash % 2 = 0) :
    (dummyTarget hashfun hash).At (makeSoDummyNode hashfun hash hlt heven) where
  lt_iff p := by
    change decide (nodeHash p < hash) = true ↔ _
    rw [decide_eq_true_eq, soNode_lt_iff]
    refine ⟨Or.inl, fun h => h.resolve_right fun hk => ?_⟩
    exact not_lt_bot hk.2
  eq_iff p := by
    change (nodeHash p == hash) = true ↔ _
    rw [beq_iff_eq]
    constructor
    · intro hh
      exact soNode_ext hh (isDummy_of_even (hh ▸ heven))
    · rintro rfl
      rfl

theorem soTarget_at (key : K) :
    (soTarget hashfun (maskedHash (hashfun key)).1 key).At (makeSoNode hashfun key) where
  lt_iff p := by
    change decide _ = true ↔ _
    rw [decide_eq_true_eq, soNode_lt_iff]
    rfl
  eq_iff p := by
    rw [eq_makeSoNode]
    change (!dummyNodeP p && decide (soKey p = key)) = true ↔ _
    rw [Bool.and_eq_true, decide_eq_true_eq]
    refine ⟨And.right, fun hk => ⟨?_, hk⟩⟩
    have hodd := maskedHash_odd (hashfun key)
    rw [← nodeHash_of_key hk] at hodd
    simp [dummyNodeP, hodd]

end Sbcl.Lockless
