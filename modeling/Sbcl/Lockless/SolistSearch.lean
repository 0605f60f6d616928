import Sbcl.Lockless.SolistSolo

/-!
# Searching a split-ordered list from C (runtime/search.c)

`split_ordered_list_find` walks over the nodes of an address-keyed table without helping with
deletions. A marked next pointer is a pointer without its tag, which is never equal to
`LFLIST_TAIL_ATOM`.

* `splitOrderedListFindStep` : the function, by its reads of a bin and of a node;
* `loop_returns` : where the walk ends;
* `split_ordered_list_find_iff` : when it answers as `so-find/addr` does;
* `twoKeys`, `deletedLast` : tables with nodes that are deleted and still in the list.
-/

namespace Sbcl.Lockless

open MarkedList Status Nat

abbrev AddrTable := SoTable multiplicativeHash

inductive CFindPc where
  /-- At `nodeptr = bins->data[bin_index]`. -/
  | bin (binIndex : Int)
  /-- At the head of the loop, with what `node` points to. -/
  | loop (node : Ref)
  deriving DecidableEq

inductive CFindResult where
  | node (n : Nat)
  | null
  /-- The loop looks for a hash and a key in the tail, which has neither. -/
  | tail
  /-- A negative index is outside of the vector of bins. -/
  | outside
  deriving DecidableEq

def fullHash (key : Word) : Hash := maskedHash (multiplicativeHash key)

/-- `LFLIST_TAIL_ATOM`: a pointer to the tail, with its tag. -/
def lflistTailAtom : Next := ⟨.tail, false⟩

/-- `split_ordered_list_find`. -/
def splitOrderedListFindStep (key : Word) (t : AddrTable) : CFindPc →
    AddrTable × Status CFindPc CFindResult
  | .bin binIndex =>
    if binIndex < 0 then (t, .returned .outside)
    else
      (t, .running
        (match (t.vectors t.bins).bin binIndex.toNat with
        | none => .bin (binIndex - 1)
        | some node => .loop (.node node)))
  | .loop .tail => (t, .returned .tail)
  | .loop (.node node) =>
    let next := t.heap.next node
    let hash := nodeHash (t.heap.pos node)
    if hash = (fullHash key).1 ∧ soKey (t.heap.pos node) = key ∧ next.marked = false then (t,
      .returned (.node node))
    else if hash > (fullHash key).1 ∨ next = lflistTailAtom then (t, .returned .null)
    else (t, .running (.loop next.ref))

/-- `int bin_index = full_hash >> shift`. -/
def binIndex (key : Word) (t : AddrTable) : Int :=
  (BitVec.ofNat 32 ((t.vectors t.bins).index (fullHash key))).toInt

/-- What the function returns for the table as it is. -/
def SplitOrderedListFind (key : Word) (t : AddrTable) (r : CFindResult) : Prop :=
  Returns (splitOrderedListFindStep key) t (.bin (binIndex key t)) t r

variable {t : AddrTable} {key : Word} {n m : Nat} {r : CFindResult}

/-! ## The walk -/

/-- The node that the loop returns. -/
def IsHit (key : Word) (t : AddrTable) (n : Nat) : Prop :=
  soKey (t.heap.pos n) = key ∧ (t.heap.next n).marked = false

/-- A node behind which the loop does not look. -/
def Stops (key : Word) (t : AddrTable) (n : Nat) : Prop :=
  (fullHash key).1 < nodeHash (t.heap.pos n) ∨ t.heap.next n = lflistTailAtom

/-- What the result says about the nodes from `n` on. -/
def LoopResult (key : Word) (t : AddrTable) (n : Nat) : CFindResult → Prop
  | .node m => Reach t.heap n m ∧ IsHit key t m
  | .null => ∃ m, Reach t.heap n m ∧ Stops key t m
  | .tail => ∃ m, Reach t.heap n m ∧ t.heap.next m = ⟨.tail, true⟩ ∧
    nodeHash (t.heap.pos m) ≤ (fullHash key).1
  | .outside => False

theorem LoopResult.cons (hs : Succ t.heap n m) (h : LoopResult key t m r) :
    LoopResult key t n r := by
  cases r with
  | node k => exact ⟨h.1.head hs, h.2⟩
  | null =>
    obtain ⟨k, hk, hstop⟩ := h
    exact ⟨k, hk.head hs, hstop⟩
  | tail =>
    obtain ⟨k, hk, hlast⟩ := h
    exact ⟨k, hk.head hs, hlast⟩
  | outside => exact h

theorem IsHit.hash (h : IsHit key t n) : nodeHash (t.heap.pos n) = (fullHash key).1 :=
  nodeHash_of_key h.1

theorem loop_hit (h : IsHit key t n) : splitOrderedListFindStep key t (.loop (.node n)) =
    (t, .returned (.node n)) :=
  if_pos ⟨h.hash, h⟩

theorem loop_stops (h : ¬ IsHit key t n) (hs : Stops key t n) :
    splitOrderedListFindStep key t (.loop (.node n)) = (t, .returned .null) :=
  (if_neg fun hc => h hc.2).trans (if_pos hs)

theorem loop_next (h : ¬ IsHit key t n) (hs : ¬ Stops key t n) :
    splitOrderedListFindStep key t (.loop (.node n)) = (t, .running (.loop (t.heap.next n).ref)) :=
  (if_neg fun hc => h hc.2).trans (if_neg hs)

theorem last_marked (hs : ¬ Stops key t n) (hr : (t.heap.next n).ref = .tail) :
    t.heap.next n = ⟨.tail, true⟩ ∧ nodeHash (t.heap.pos n) ≤ (fullHash key).1 := by
  obtain ⟨hle, hne⟩ := not_or.mp hs
  refine ⟨?_, Nat.not_lt.mp hle⟩
  generalize t.heap.next n = next at hr hne
  obtain ⟨ref, marked⟩ := next
  subst hr
  cases marked with
  | false => exact absurd rfl hne
  | true => rfl

theorem loop_returns (hg : SoGood t) (key : Word) {size : Nat} (hn : n < t.heap.top)
    (hsize : (NodesFrom t.heap (.node n)).card ≤ size) :
    ∃ r, Returns (splitOrderedListFindStep key) t (.loop (.node n)) t r ∧ LoopResult key t n r ∧
      ∀ m, Reach t.heap n m → IsHit key t m → r = .node m := by
  induction size generalizing n with
  | zero =>
    have hmem : n ∈ NodesFrom t.heap (.node n) := by simp [NodesFrom, hn]
    rw [Finset.card_eq_zero.mp (le_zero.mp hsize)] at hmem
    exact absurd hmem (Finset.notMem_empty n)
  | succ size ih =>
    by_cases hhit : IsHit key t n
    · refine ⟨.node n, .done (loop_hit hhit), ⟨.refl, hhit⟩, fun m hm hm' => ?_⟩
      -- two unmarked nodes of one key are one node
      have hpos : t.heap.pos n = t.heap.pos m :=
        (eq_makeSoNode.mpr hhit.1).trans (eq_makeSoNode.mpr hm'.1).symm
      rw [hg.wf.pos_injective hn (hg.wf.reach hn hm).1 hhit.2 hm'.2 hpos]
    have hlater : ∀ m, Reach t.heap n m → IsHit key t m → ∃ k, (t.heap.next n).ref = .node k ∧
        Reach t.heap k m := by
      intro m hm hm'
      rcases Relation.ReflTransGen.cases_head hm with rfl | ⟨k, hk, hkm⟩
      · exact absurd hm' hhit
      · exact ⟨k, hk, hkm⟩
    by_cases hstop : Stops key t n
    · refine ⟨.null, .done (loop_stops hhit hstop), ⟨n, .refl, hstop⟩, fun m hm hm' => ?_⟩
      obtain ⟨k, hk, hkm⟩ := hlater m hm hm'
      rcases hstop with hlt | htail
      · -- every node behind `n` has a hash that is too large
        have hle := hg.wf.reach_pos_le hn hm
        rcases soNode_le_iff.mp hle with h | ⟨h, _⟩
        · have := hm'.hash
          omega
        · have := hm'.hash
          omega
      · rw [htail] at hk
        cases hk
    have hstep := loop_next hhit hstop
    cases hr : (t.heap.next n).ref with
    | tail =>
      rw [hr] at hstep
      refine ⟨.tail, .next hstep (.done rfl), ⟨n, .refl, last_marked hstop hr⟩, fun m hm hm' => ?_⟩
      obtain ⟨k, hk, _⟩ := hlater m hm hm'
      rw [hr] at hk
      cases hk
    | node k =>
      have hsmaller := nodesFrom_next hg.wf hn
      rw [hr] at hstep hsmaller
      obtain ⟨r, hret, hres, hfirst⟩ := ih (hg.wf.sorted n hn k hr).1 (by omega)
      refine ⟨r, .next hstep hret, hres.cons hr, fun m hm hm' => ?_⟩
      obtain ⟨k', hk', hkm⟩ := hlater m hm hm'
      rw [hr] at hk'
      cases hk'
      exact hfirst m hkm hm'

/-- The index of the bin is not negative as an `int`, as in every table of at most `2 ^ 31` bins. -/
def IndexFits (key : Word) (t : AddrTable) : Prop :=
  (t.vectors t.bins).index (fullHash key) % 2 ^ 32 < 2 ^ 31

theorem binIndex_of_fits (h : IndexFits key t) :
    ∃ i ≤ (t.vectors t.bins).index (fullHash key), binIndex key t = (i : Nat) := by
  refine ⟨_, mod_le _ (2 ^ 32), ?_⟩
  unfold IndexFits at h
  rw [binIndex, BitVec.toInt_eq_toNat_cond, BitVec.toNat_ofNat, if_pos (by omega)]

theorem outside_returns (h : ¬ IndexFits key t) : SplitOrderedListFind key t .outside := by
  refine .done (if_pos ?_)
  unfold IndexFits at h
  have hlt := Nat.mod_lt ((t.vectors t.bins).index (fullHash key)) (Nat.two_pow_pos 32)
  rw [binIndex, BitVec.toInt_eq_toNat_cond, BitVec.toNat_ofNat, if_neg (by omega)]
  omega

theorem bin_returns (hg : SoGood t) (key : Word) {i : Nat}
    (hi : i ≤ (t.vectors t.bins).index (fullHash key)) :
    ∃ start, IsStart (fullHash key).1 t start ∧ ∀ r,
      Returns (splitOrderedListFindStep key) t (.loop (.node start)) t r →
      Returns (splitOrderedListFindStep key) t (.bin i) t r := by
  have hb := hg.bins_lt
  have hnonneg (i : Nat) : ¬ (i : Int) < 0 := by omega
  induction i with
  | zero =>
    have hfirst := hg.first t.bins hb
    obtain ⟨_, hn⟩ := hg.bin t.bins hb 0 soHead hfirst
    refine ⟨soHead, ⟨hn.lt, hn.dummy, ?_⟩, fun r => .next ?_⟩
    · rw [hn.hash, Bins.dummyHash_zero]
      exact Nat.zero_le _
    · simp only [splitOrderedListFindStep, if_neg (hnonneg 0), Int.toNat_natCast, hfirst]
  | succ i ih =>
    cases hbin : (t.vectors t.bins).bin (i + 1) with
    | none =>
      obtain ⟨start, hstart, hthen⟩ := ih (le_of_succ_le hi)
      refine ⟨start, hstart, fun r hr => .next ?_ (hthen r hr)⟩
      have hprevious : ((i + 1 : Nat) : Int) - 1 = i := by omega
      simp only [splitOrderedListFindStep, if_neg (hnonneg (i + 1)), Int.toNat_natCast,
        hbin, hprevious]
    | some start =>
      obtain ⟨_, hn⟩ := hg.bin t.bins hb (i + 1) start hbin
      refine ⟨start, ⟨hn.lt, hn.dummy, ?_⟩, fun r => .next ?_⟩
      · rw [hn.hash]
        refine Nat.le_trans ?_ ((t.vectors t.bins).dummyHash_index_le (fullHash key))
        rw [Bins.dummyHash, Bins.dummyHash, Nat.shiftLeft_eq, Nat.shiftLeft_eq]
        exact Nat.mul_le_mul_right _ hi
      · simp only [splitOrderedListFindStep, if_neg (hnonneg (i + 1)), Int.toNat_natCast, hbin]

/-- The function ends, having looked at the nodes from some node of the list on. -/
theorem splitOrderedListFind_returns (hg : SoGood t) (hfits : IndexFits key t) : ∃ r start,
    SplitOrderedListFind key t r ∧ Reach t.heap soHead start ∧ LoopResult key t start r ∧
      ∀ m < t.heap.top, IsHit key t m → r = .node m := by
  obtain ⟨i, hi, hindex⟩ := binIndex_of_fits hfits
  obtain ⟨start, hstart, hthen⟩ := bin_returns hg key hi
  obtain ⟨r, hret, hres, hfirst⟩ := loop_returns hg key hstart.lt (Nat.le_refl _)
  have hlive := hstart.anchored hg
  refine ⟨r, start, ?_, hg.wf.live start hstart.lt hlive, hres, fun m hm hhit => hfirst m ?_ hhit⟩
  · rw [SplitOrderedListFind, hindex]
    exact hthen r hret
  -- the node of the key is behind every dummy node of a smaller hash
  refine (reach_total (hg.wf.live start hstart.lt hlive) (hg.wf.live m hm hhit.2)).resolve_right
    fun hr => ?_
  have hle := hg.wf.reach_pos_le hm hr
  have hlt := hstart.left key
  rw [(eq_makeSoNode.mpr hhit.1 : t.heap.pos m = _)] at hle
  exact absurd (((soTarget_at key).lt_iff _).mp hlt.2) (not_lt.mpr hle)

/-! ## Lisp and C -/

/-- The function returns, not from the tail or the outside, and with a node exactly when
`so-find/addr` returns one, which is when the key is in the table; the node is unmarked and of that
key. -/
def FindsLikeLisp (key : Word) (t : AddrTable) : Prop :=
  ∃ r, SplitOrderedListFind key t r ∧ r ≠ .tail ∧ r ≠ .outside ∧
    ((∃ n, r = .node n) ↔ HasKey t key) ∧
    (∀ n, r = .node n → soKey (t.heap.pos n) = key ∧ Unmarked n t.heap) ∧
    ∃ t' r', Returns (soFindStep (multiplicativeHash key) key) t (.withBin .readBins) t' r' ∧
      (r'.isSome = true ↔ ∃ n, r = .node n)

/-- The key is in the table, or the last node of the list is not deleted or has a larger hash. -/
def StopsBeforeTail (key : Word) (t : AddrTable) : Prop :=
  HasKey t key ∨ ∀ n, Reach t.heap soHead n → t.heap.next n = ⟨.tail, true⟩ →
    (fullHash key).1 < nodeHash (t.heap.pos n)

theorem hasKey_iff_hit : HasKey t key ↔ ∃ m < t.heap.top, IsHit key t m := by
  refine exists_congr fun m => and_congr_right fun _ => ?_
  rw [eq_makeSoNode, and_comm]
  rfl

theorem reach_last (hr : Reach t.heap n m) (hn : (t.heap.next n).ref = .tail) : m = n := by
  rcases Relation.ReflTransGen.cases_head hr with rfl | ⟨k, hk, _⟩
  · rfl
  · rw [Succ, hn] at hk
    cases hk

theorem tail_iff (hg : SoGood t) (hfits : IndexFits key t) (hr : SplitOrderedListFind key t r) :
    r ≠ .tail ↔ StopsBeforeTail key t := by
  obtain ⟨r', start, hr', hstart, hres, hfirst⟩ := splitOrderedListFind_returns hg hfits
  obtain ⟨_, rfl⟩ := hr.unique hr'
  constructor
  · intro hne
    by_cases hkey : HasKey t key
    · exact Or.inl hkey
    refine Or.inr fun n hn hlast => ?_
    cases r with
    | tail => exact absurd rfl hne
    | outside => exact absurd hres id
    | node m =>
      obtain ⟨hm, hhit⟩ := hres
      refine absurd (hasKey_iff_hit.mpr ⟨m, ?_, hhit⟩) hkey
      exact (hg.wf.reach (hg.wf.reach hg.wf.root_lt hstart).1 hm).1
    | null =>
      obtain ⟨m, hm, hstop⟩ := hres
      -- the node that stopped the loop is at or before the last one
      have hmn : Reach t.heap m n := by
        refine (reach_total (hstart.trans hm) hn).elim id fun hnm => ?_
        rw [reach_last hnm (by rw [hlast])]
        exact .refl
      rcases hstop with hlt | htail
      · have hmt := (hg.wf.reach hg.wf.root_lt (hstart.trans hm)).1
        rcases soNode_le_iff.mp (hg.wf.reach_pos_le hmt hmn) with h | ⟨h, _⟩
        · exact Nat.lt_trans hlt h
        · exact Nat.lt_of_lt_of_eq hlt h
      · rw [reach_last hmn (by rw [htail]; rfl), htail] at hlast
        cases hlast
  · rintro hcond rfl
    obtain ⟨m, hm, hlast, hle⟩ := hres
    rcases hcond with hkey | hcond
    · obtain ⟨k, hk, hhit⟩ := hasKey_iff_hit.mp hkey
      cases hfirst k hk hhit
    · exact absurd (hcond m (hstart.trans hm) hlast) (Nat.not_lt.mpr hle)

theorem split_ordered_list_find_iff (hg : SoGood t) (key : Word) :
    FindsLikeLisp key t ↔ StopsBeforeTail key t ∧ IndexFits key t := by
  constructor
  · rintro ⟨r, hr, hne, hin, _⟩
    have hfits : IndexFits key t := by
      by_contra hnot
      exact hin (hr.unique (outside_returns hnot)).2
    exact ⟨(tail_iff hg hfits hr).mp hne, hfits⟩
  rintro ⟨hcond, hfits⟩
  obtain ⟨r, start, hr, hstart, hres, hfirst⟩ := splitOrderedListFind_returns hg hfits
  have hnode : ∀ n, r = .node n → n < t.heap.top ∧ IsHit key t n := by
    rintro n rfl
    exact ⟨(hg.wf.reach (hg.wf.reach hg.wf.root_lt hstart).1 hres.1).1, hres.2⟩
  have hkey : (∃ n, r = .node n) ↔ HasKey t key := by
    rw [hasKey_iff_hit]
    exact ⟨fun ⟨n, hn⟩ => ⟨n, hnode n hn⟩, fun ⟨n, hn, hhit⟩ => ⟨n, hfirst n hn hhit⟩⟩
  obtain ⟨t', r', hret, hfind⟩ := soFind_returns hg (multiplicativeHash key) key
  refine ⟨r, hr, (tail_iff hg hfits hr).mpr hcond, ?_, hkey, fun n hn => ?_, t', r', hret, ?_⟩
  · rintro rfl
    exact hres
  · obtain ⟨hlt, hpos, hm⟩ := hnode n hn
    exact ⟨hpos, hlt, hm⟩
  · rw [hkey, hfind.isSome_iff, and_iff_left (clear_own key t)]

/-! ## Deleted nodes -/

/-- A table with one key. -/
def oneKey (key : Word) : AddrTable :=
  let t := makeSoList multiplicativeHash 4
  { t with heap := t.heap.link soHead (makeSoNode multiplicativeHash key) .tail, count := 1 }

/-- The key was deleted, and its node is marked but not yet unlinked. -/
def deletedLast (key : Word) : AddrTable :=
  { oneKey key with heap := (oneKey key).heap.setNext 1 ⟨.tail, true⟩ }

/-- Behind the node of the first key, which was deleted but not yet unlinked, is that of the second
one. -/
def twoKeys (first second : Word) : AddrTable :=
  let h := (oneKey first).heap.link 1 (makeSoNode multiplicativeHash second) .tail
  { oneKey first with heap := h.setNext 1 ⟨.node 2, true⟩ }

theorem oneKey_next (key : Word) : (oneKey key).heap.next 1 = ⟨.tail, false⟩ :=
  Heap.link_next_top Nat.one_pos

theorem oneKey_pos (key : Word) : (oneKey key).heap.pos 1 = makeSoNode multiplicativeHash key :=
  Heap.link_pos_top

theorem oneKey_good (key : Word) : SoGood (oneKey key) := by
  have hg := makeSoList_good multiplicativeHash 4
  have hchange : Change IsDummy (makeSoList multiplicativeHash 4).heap (oneKey key).heap := by
    refine .link soHead .tail _ Nat.one_pos rfl (soNode_lt_iff.mpr (Or.inl ?_)) fun n hn =>
      Ref.noConfusion hn
    have hodd := maskedHash_odd (multiplicativeHash key)
    exact Nat.pos_of_ne_zero fun h0 => by
      rw [show nodeHash (makeSoNode multiplicativeHash key) =
        (maskedHash (multiplicativeHash key)).1 from rfl] at h0
      omega
  exact (SoChange.counters 1 8).good ((SoChange.heap hchange).good hg)

theorem deletedLast_good (key : Word) : SoGood (deletedLast key) := by
  have hnext := oneKey_next key
  have hmark :
      Change IsDummy (oneKey key).heap ((oneKey key).heap.setNext 1 ⟨((oneKey key).heap.next 1).ref,
        true⟩) := by
    refine .mark 1 (lt_succ_self 1) ?_ (by rw [hnext])
    rw [oneKey_pos]
    exact not_isDummy_makeSoNode
  rw [hnext] at hmark
  exact (SoChange.heap hmark).good (oneKey_good key)

theorem twoKeys_good {first second : Word}
    (h : makeSoNode multiplicativeHash first < makeSoNode multiplicativeHash second) :
    SoGood (twoKeys first second) := by
  let h₁ := (oneKey first).heap.link 1 (makeSoNode multiplicativeHash second) .tail
  have hlink : Change IsDummy (oneKey first).heap h₁ := by
    refine .link 1 .tail _ (lt_succ_self 1) (oneKey_next first) ?_ fun n hn => Ref.noConfusion hn
    rw [oneKey_pos]
    exact h
  have hnext : h₁.next 1 = ⟨.node 2, false⟩ := Heap.link_next_left
  have hmark : Change IsDummy h₁ (h₁.setNext 1 ⟨(h₁.next 1).ref, true⟩) := by
    refine .mark 1 (lt_of_succ_lt (lt_succ_self 2)) ?_ (by rw [hnext])
    rw [show h₁.pos 1 = makeSoNode multiplicativeHash first from
      (Heap.link_pos_of_lt (lt_succ_self 1)).trans (oneKey_pos first)]
    exact not_isDummy_makeSoNode
  rw [hnext] at hmark
  exact (SoChange.heap (t := { oneKey first with heap := h₁ }) hmark).good
    ((SoChange.heap hlink).good (oneKey_good first))

theorem twoKeys_stops (key : Word) {first second : Word} (hg : SoGood (twoKeys first second)) :
    StopsBeforeTail key (twoKeys first second) := by
  refine Or.inr fun n hn hlast => ?_
  have hlt : n < 3 := (hg.wf.reach hg.wf.root_lt hn).1
  have h0 : (twoKeys first second).heap.next 0 = ⟨.node 1, false⟩ := rfl
  have h1 : (twoKeys first second).heap.next 1 = ⟨.node 2, true⟩ := rfl
  have h2 : (twoKeys first second).heap.next 2 = ⟨.tail, false⟩ := rfl
  have hcases : n = 0 ∨ n = 1 ∨ n = 2 := by omega
  rcases hcases with rfl | rfl | rfl
  · rw [h0] at hlast
    cases hlast
  · rw [h1] at hlast
    cases hlast
  · rw [h2] at hlast
    cases hlast

theorem split_ordered_list_find_iff_two : HasKey (twoKeys 0x1001 0x2001) 0x2001 ∧
    FindsLikeLisp 0x2001 (twoKeys 0x1001 0x2001) ∧
    FindsLikeLisp 0x1001 (twoKeys 0x1001 0x2001) := by
  have hg : SoGood (twoKeys 0x1001 0x2001) := twoKeys_good (soNode_lt_iff.mpr (Or.inl (by decide)))
  refine ⟨⟨2, lt_succ_self 2, rfl, rfl⟩, ?_, ?_⟩
  · exact (split_ordered_list_find_iff hg 0x2001).mpr
      ⟨twoKeys_stops _ hg, by unfold IndexFits; decide⟩
  · exact (split_ordered_list_find_iff hg 0x1001).mpr
      ⟨twoKeys_stops _ hg, by unfold IndexFits; decide⟩

theorem deletedLast_next (key : Word) : (deletedLast key).heap.next 1 = ⟨.tail, true⟩ :=
  Heap.setNext_next_self _

theorem deletedLast_pos (key : Word) :
    (deletedLast key).heap.pos 1 = makeSoNode multiplicativeHash key :=
  oneKey_pos key

theorem deletedLast_absent (key : Word) : ¬ HasKey (deletedLast key) key := by
  rintro ⟨n, hn, hm, hpos⟩
  have hcases : n = 0 ∨ n = 1 := by
    have hn' : n < 2 := hn
    omega
  rcases hcases with rfl | rfl
  · exact WithBot.coe_ne_bot (eq_makeSoNode.mp hpos).symm
  · rw [deletedLast_next] at hm
    cases hm

theorem deletedLast_tail (key : Word) : ¬ StopsBeforeTail key (deletedLast key) := by
  rintro (hkey | hcond)
  · exact deletedLast_absent key hkey
  have hreach : Reach (deletedLast key).heap soHead 1 := .single rfl
  have hlt := hcond 1 hreach (deletedLast_next key)
  rw [deletedLast_pos] at hlt
  exact Nat.lt_irrefl _ hlt

theorem split_ordered_list_find_misses :
    SoGood (deletedLast 0x1001) ∧ ¬ HasKey (deletedLast 0x1001) 0x1001 ∧
      SplitOrderedListFind 0x1001 (deletedLast 0x1001) .tail ∧
      ¬ FindsLikeLisp 0x1001 (deletedLast 0x1001) := by
  have hg := deletedLast_good 0x1001
  have hfits : IndexFits 0x1001 (deletedLast 0x1001) := by unfold IndexFits; decide
  obtain ⟨r, _, hr, _⟩ := splitOrderedListFind_returns hg hfits
  have htail : r = .tail :=
    Classical.byContradiction fun hne => deletedLast_tail 0x1001 ((tail_iff hg hfits hr).mp hne)
  subst htail
  refine ⟨hg, deletedLast_absent 0x1001, hr, ?_⟩
  rintro ⟨r, hr', hne, _⟩
  exact hne (hr'.unique hr).2

end Sbcl.Lockless
