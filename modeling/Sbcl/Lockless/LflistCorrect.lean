import Sbcl.Lockless.LflistSpec

/-!
# Runs of threads on one lock-free list

Any number of threads call `lfl-insert`, `lfl-insert*`, `lfl-delete` and `lfl-find` on one list.

* `lfl_relyGuarantee` : the invariant of the list and what each thread knows survive every atomic
  step;
* `gained`, `lost` : only an insert of a key puts it into the list, only a delete takes it out;
* `InsertCall.linearizes`, `delete_exactly_one` : what the results of the calls mean.
-/

namespace Sbcl.Lockless

open MarkedList Interleaving Nat

variable {K : Type} [LinearOrder K] {h h' : Lfl K} {key : K} {W : Lfl K → Prop}
variable {existed r : Bool} {pc : DeletePc} {key' : K} {l : LflThread K} {s : Status DeletePc Bool}

def IsSentinel (p : WithBot K) : Prop := p = ⊥

def LflGood (h : Lfl K) : Prop := WF IsSentinel listHead h

theorem keyTarget_at (key : K) : (keyTarget key).At (key : WithBot K) where
  lt_iff p := by simp [keyTarget]
  eq_iff p := by simp [keyTarget, eq_comm]

theorem LflGood.left (hg : LflGood h) (key : K) : Left (keyTarget key) h listHead := by
  refine ⟨hg.root_lt, ((keyTarget_at key).lt_iff _).mpr ?_⟩
  rw [show h.pos listHead = ⊥ from hg.root_fixed]
  exact WithBot.bot_lt_coe key

theorem LflGood.anchored (hg : LflGood h) : (h.next listHead).marked = false :=
  hg.fixed_live _ hg.root_lt hg.root_fixed

/-- What a thread knows. -/
def LflInv (W : Lfl K → Prop) (h : Lfl K) : LflThread K → Prop
  | .idle => True
  | .insert start key pc => Left (keyTarget key) h start ∧ SearchInv (keyTarget key) False W h pc
  | .delete key pc => DeleteInv (keyTarget key) True W h pc
  | .find key pc => SearchInv (keyTarget key) True W h pc
  | .inserted _ key (n, existed) => existed = true → n < h.top ∧ h.pos n = key ∧
    Saw W h (Unmarked n)
  | .deleted key r => r = false → Saw W h (NotFound (keyTarget key))
  | .foundNode key none => Saw W h (NotFound (keyTarget key))
  | .foundNode key (some n) => n < h.top ∧ h.pos n = key ∧ Saw W h (Unmarked n)

theorem Linked.change {q : WithBot K} (hl : Linked q h h') : Change IsSentinel h h' := by
  obtain ⟨left, right, hlt, hnext, hlq, hqr, rfl⟩ := hl
  exact .link left right q hlt hnext hlq hqr

theorem Marks.change {n : Nat} (hm : Marks (key : WithBot K) n h h') : Change IsSentinel h h' := by
  obtain ⟨⟨hn, hnm⟩, hpos, rfl⟩ := hm
  refine .mark n hn ?_ hnm
  rw [IsSentinel, hpos]
  exact WithBot.coe_ne_bot

theorem lflStep_insert (start : Nat) (pc : SearchPc) : lflStep h (.insert start key pc) =
    ((lflInsertFrom start key h pc).1, .ofInsert start key (lflInsertFrom start key h pc).2) := rfl

theorem lflStep_delete (pc : DeletePc) : lflStep h (.delete key pc) =
    ((lflDelete key h pc).1, .ofDelete key (lflDelete key h pc).2) := rfl

theorem lflStep_find (pc : SearchPc) : lflStep h (.find key pc) =
    ((lflFind key h pc).1, .ofFind key (lflFind key h pc).2) := rfl

theorem lflInsert_step (hg : LflGood h) {start : Nat} {pc : SearchPc}
    (hi : LflInv W h (.insert start key pc)) (hW : W h) (hW' : W (lflInsertFrom start key h pc).1) :
    InsertPost (keyTarget key) key False W h (lflInsertFrom start key h pc).1
      (lflInsertFrom start key h pc).2 :=
  insertStep_spec hg (keyTarget_at key) hi.1 False.elim hi.2 hW hW'

theorem lflDelete_step (hg : LflGood h) (hi : LflInv W h (.delete key pc)) (hW : W h)
    (hW' : W (lflDelete key h pc).1) :
    DeletePost (keyTarget key) key True W h (lflDelete key h pc).1 pc (lflDelete key h pc).2 :=
  deleteStep_spec hg (keyTarget_at key) (hg.left key) (fun _ => hg.anchored) (hg.left key)
    (fun _ => hg.anchored) hi hW hW'

theorem lflFind_step (hg : LflGood h) {pc : SearchPc} (hi : LflInv W h (.find key pc)) (hW : W h)
    (hW' : W (lflFind key h pc).1) :
    FindPost (keyTarget key) True W h (lflFind key h pc).1 (lflFind key h pc).2 :=
  findStep_spec hg (hg.left key) (fun _ => hg.anchored) hi hW hW'

theorem LflInv.le (hle : Le h h') (hi : LflInv W h l) : LflInv W h' l := by
  have hnode : ∀ n (key : K), n < h.top ∧ h.pos n = key ∧ Saw W h (Unmarked n) →
      n < h'.top ∧ h'.pos n = key ∧ Saw W h' (Unmarked n) := by
    rintro n key ⟨hn, hpos, hs⟩
    refine ⟨Nat.lt_of_lt_of_le hn hle.top, ?_, hs.le hle⟩
    rw [hle.pos n hn]
    exact hpos
  cases l with
  | idle => trivial
  | insert start key pc => exact ⟨hi.1.le hle, hi.2.le hle⟩
  | delete key pc => exact DeleteInv.le hle hi
  | find key pc => exact SearchInv.le hle hi
  | inserted start key r => exact fun hr => hnode _ _ (hi hr)
  | deleted key r => exact fun hr => (hi hr).le hle
  | foundNode key r =>
    cases r with
    | none => exact Saw.le hle hi
    | some n => exact hnode n key hi

theorem LflInv.mono {W' : Lfl K → Prop} (hW : ∀ h, W h → W' h) (hi : LflInv W h l) :
    LflInv W' h l := by
  cases l with
  | idle => trivial
  | insert start key pc => exact ⟨hi.1, hi.2.mono hW⟩
  | delete key pc => exact DeleteInv.mono hW hi
  | find key pc => exact SearchInv.mono hW hi
  | inserted start key r => exact fun hr => ⟨(hi hr).1, (hi hr).2.1, (hi hr).2.2.mono hW⟩
  | deleted key r => exact fun hr => (hi hr).mono hW
  | foundNode key r =>
    cases r with
    | none => exact Saw.mono hW hi
    | some n => exact ⟨hi.1, hi.2.1, hi.2.2.mono hW⟩

theorem insertPost_run {start : Nat} {s : Status SearchPc (Nat × Bool)}
    (hstart : Left (keyTarget key) h start) (hp : InsertPost (keyTarget key) key False W h h' s) :
    Change IsSentinel h h' ∧ LflInv W h' (.ofInsert start key s) := by
  cases s with
  | running pc =>
    obtain ⟨ht, hs⟩ := hp
    exact ⟨.tidy ht, hstart.le ht.le, hs⟩
  | returned r =>
    obtain ⟨n, existed⟩ := r
    cases existed with
    | true =>
      obtain ⟨rfl, hn, heq, hs⟩ := hp
      exact ⟨.tidy .same, fun _ => ⟨hn, ((keyTarget_at key).eq_iff _).mp heq, hs⟩⟩
    | false =>
      refine ⟨hp.2.change, fun hr => ?_⟩
      cases hr

theorem deletePost_run
    (hp : DeletePost (keyTarget key) key True W h h' pc s) :
    Change IsSentinel h h' ∧ LflInv W h' (.ofDelete key s) := by
  cases s with
  | running pc' =>
    obtain ⟨hd, ⟨ht, _⟩ | ⟨_, _, n, hm⟩⟩ := hp
    · exact ⟨.tidy ht, hd⟩
    · exact ⟨hm.change, hd⟩
  | returned r =>
    cases r with
    | true =>
      refine ⟨.tidy hp.1, fun hr => ?_⟩
      cases hr
    | false =>
      obtain ⟨rfl, _, hs⟩ := hp
      exact ⟨.tidy .same, fun _ => hs trivial⟩

theorem findPost_run {s : Status SearchPc (Option Nat)}
    (hp : FindPost (keyTarget key) True W h h' s) :
    Change IsSentinel h h' ∧ LflInv W h' (.ofFind key s) := by
  cases s with
  | running pc => exact ⟨.tidy hp.1, hp.2⟩
  | returned r =>
    cases r with
    | none =>
      obtain ⟨rfl, hs⟩ := hp
      exact ⟨.tidy .same, hs trivial⟩
    | some n =>
      obtain ⟨rfl, hn, heq, hs⟩ := hp
      exact ⟨.tidy .same, hn, ((keyTarget_at key).eq_iff _).mp heq, hs⟩

theorem lfl_relyGuarantee : RelyGuarantee (lflMachine K) LflGood (Change IsSentinel) LflInv where
  init := by
    rintro h rfl
    refine ⟨Nat.one_pos, rfl, fun _ _ _ => rfl, ?_, fun n hn _ => ?_⟩
    · rintro n hn m ⟨⟩
    · obtain rfl : n = 0 := lt_one_iff.mp hn
      exact .refl
  idle _ _ := trivial
  invoke := by
    rintro W h l hg ⟨⟩ hW
    case insert start key hstart hpos =>
      exact ⟨⟨hstart, ((keyTarget_at key).lt_iff _).mpr hpos⟩, trivial⟩
    case delete key => trivial
    case find key => trivial
  step := by
    intro W h l h' l' hg hi hbusy hs hW hW'
    cases l with
    | idle => exact absurd hbusy id
    | inserted start key r => exact absurd hbusy id
    | deleted key r => exact absurd hbusy id
    | foundNode key r => exact absurd hbusy id
    | insert start key pc =>
      obtain ⟨rfl, rfl⟩ := hs
      obtain ⟨hc, hi'⟩ := insertPost_run hi.1 (lflInsert_step hg hi hW hW')
      exact ⟨hc.wf hg, hc, hi'⟩
    | delete key pc =>
      obtain ⟨rfl, rfl⟩ := hs
      obtain ⟨hc, hi'⟩ := deletePost_run (lflDelete_step hg hi hW hW')
      exact ⟨hc.wf hg, hc, hi'⟩
    | find key pc =>
      obtain ⟨rfl, rfl⟩ := hs
      obtain ⟨hc, hi'⟩ := findPost_run (lflFind_step hg hi hW hW')
      exact ⟨hc.wf hg, hc, hi'⟩
  stable W h h' l hc hi := hi.le hc.le
  refl h := .tidy .same
  mono W W' h l hW hi := hi.mono hW

/-! ## Runs -/

abbrev LflRun (K : Type) [LinearOrder K] := Execution (lflMachine K)

/-- An unmarked node of the list with that key. -/
structure KeyNode (h : Lfl K) (key : K) (n : Nat) : Prop where
  reach : Reach h listHead n
  live : (h.next n).marked = false
  pos : h.pos n = key

/-- The unmarked nodes of the list have increasing keys. -/
def Ordered (h : Lfl K) : Prop :=
  ∀ a b, Reach h listHead a → (h.next a).marked = false → (h.next b).marked = false →
    Relation.TransGen (Succ h) a b → h.pos a < h.pos b

theorem LflGood.ordered (hg : LflGood h) : Ordered h := by
  intro a b ha _ _ hab
  obtain ⟨c, hac, hcb⟩ := (Relation.TransGen.head'_iff).mp hab
  obtain ⟨hc, hpos⟩ := hg.sorted a (hg.reach hg.root_lt ha).1 c hac
  exact lt_of_lt_of_le hpos (hg.reach_pos_le hc hcb)

namespace LflRun

variable {e : LflRun K}

structure InsertCall (e : LflRun K) (i a b start : Nat) (key : K) (n : Nat) (existed : Bool) :
    Prop where
  call : e.Call i a b
  invoked : e.loc a i = .insert start key .searchAgain
  result : e.loc b i = .inserted start key (n, existed)

structure DeleteCall (e : LflRun K) (i a b : Nat) (key : K) (r : Bool) : Prop where
  call : e.Call i a b
  invoked : e.loc a i = .delete key (.search .searchAgain)
  result : e.loc b i = .deleted key r

/-- Thread `i` is in a delete of the key. -/
def Deleting (e : LflRun K) (m i : Nat) (key : K) : Prop := ∃ pc, e.loc m i = .delete key pc

/-- At this moment an insert of the key links its node and returns. -/
def Links (e : LflRun K) (m : Nat) (key : K) : Prop :=
  ∃ i start pc n, e.loc m i = .insert start key pc ∧
    e.loc (m + 1) i = .inserted start key (n, false)

/-- At this moment a delete of the key by thread `i` marks its node. -/
def MarksAt (e : LflRun K) (m i : Nat) (key : K) : Prop :=
  ∃ pc pc', e.loc m i = .delete key pc ∧ e.loc (m + 1) i = .delete key pc' ∧
    ¬ pc.Marked ∧ pc'.Marked

theorem good (e : LflRun K) (m : Nat) : LflGood (e.shared m) := e.shared_inv lfl_relyGuarantee m

variable {a b : Nat}

theorem le (e : LflRun K) (hab : a ≤ b) : Le (e.shared a) (e.shared b) :=
  e.guarantee_le lfl_relyGuarantee Le.refl (fun _ _ _ => Le.trans) (fun _ _ => Change.le) hab

theorem knows (e : LflRun K) (m i : Nat) : LflInv (fun _ => True) (e.shared m) (e.loc m i) :=
  (Execution.inv e lfl_relyGuarantee m).2 i

variable {m n : Nat}

theorem keyNode_iff (e : LflRun K) :
    KeyNode (e.shared m) key n ↔ Unmarked n (e.shared m) ∧ (e.shared m).pos n = key := by
  constructor
  · rintro ⟨hr, hm, hp⟩
    exact ⟨⟨((e.good m).reach (e.good m).root_lt hr).1, hm⟩, hp⟩
  · rintro ⟨⟨hn, hm⟩, hp⟩
    exact ⟨(e.good m).live n hn hm, hm, hp⟩

theorem present_iff (e : LflRun K) : Present (e.shared m) (key : WithBot K) ↔ ∃ n,
    KeyNode (e.shared m) key n := by
  refine exists_congr fun n => ?_
  rw [e.keyNode_iff, Unmarked, and_assoc]

theorem step_cases (e : LflRun K) (m : Nat) :
    e.shared (m + 1) = e.shared m ∨ ∃ i, (e.loc m i).Busy ∧
      e.shared (m + 1) = (lflStep (e.shared m) (e.loc m i)).1 ∧
        e.loc (m + 1) i = (lflStep (e.shared m) (e.loc m i)).2 := by
  rcases e.next m with heq | ⟨i, hstep⟩
  · left
    rw [Execution.shared, heq, Execution.shared]
  · obtain ⟨_, hs, _⟩ | ⟨hbusy, hs⟩ := hstep.own
    · exact Or.inl hs
    · exact Or.inr ⟨i, hbusy, hs⟩

theorem contents_step (e : LflRun K) (m : Nat) :
    (∀ p, Present (e.shared (m + 1)) p ↔ Present (e.shared m) p) ∨
      (∃ key, e.Links m key ∧ ∀ p, Present (e.shared (m + 1)) p ↔
        Present (e.shared m) p ∨ p = key) ∨
      ∃ i key, e.MarksAt m i key ∧ ∀ p, Present (e.shared (m + 1)) p ↔
        Present (e.shared m) p ∧ p ≠ key := by
  rcases e.step_cases m with hs | ⟨i, hbusy, hs, hl⟩
  · left
    rw [hs]
    exact fun p => Iff.rfl
  have hi := e.knows m i
  rw [hs]
  cases hloc : e.loc m i with
  | idle => rw [hloc] at hbusy; exact absurd hbusy id
  | inserted start key r => rw [hloc] at hbusy; exact absurd hbusy id
  | deleted key r => rw [hloc] at hbusy; exact absurd hbusy id
  | foundNode key r => rw [hloc] at hbusy; exact absurd hbusy id
  | insert start key pc =>
    rw [hloc] at hi hl
    obtain hp | ⟨n, hn, hp⟩ := (lflInsert_step (e.good m) hi trivial trivial).present
    · exact Or.inl hp
    · refine Or.inr (Or.inl ⟨key, ⟨i, start, pc, n, hloc, ?_⟩, hp⟩)
      rw [hl, lflStep_insert, hn]
      rfl
  | delete key pc =>
    rw [hloc] at hi hl
    obtain hp | ⟨pc', hn, hpc, hpc', hp⟩ :=
      (lflDelete_step (e.good m) hi trivial trivial).present (e.good m)
    · exact Or.inl hp
    · refine Or.inr (Or.inr ⟨i, key, ⟨pc, pc', hloc, ?_, hpc, hpc'⟩, hp⟩)
      rw [hl, lflStep_delete, hn]
      rfl
  | find key pc =>
    rw [hloc] at hi
    exact Or.inl fun p => (lflFind_step (e.good m) hi trivial trivial).present

/-- A key comes into the list only with an insert. -/
theorem gained (hab : a ≤ b) (ha : ¬ Present (e.shared a) (key : WithBot K))
    (hb : Present (e.shared b) (key : WithBot K)) : ∃ m, a ≤ m ∧ m < b ∧ e.Links m key := by
  obtain ⟨m, ham, hmb, hm, hm'⟩ :=
    exists_first (p := fun m => Present (e.shared m) (key : WithBot K)) hab ha hb
  refine ⟨m, ham, hmb, ?_⟩
  obtain hp | ⟨key', hl, hp⟩ | ⟨i, key', hl, hp⟩ := e.contents_step m
  · exact absurd ((hp _).mp hm') hm
  · rcases (hp _).mp hm' with h | h
    · exact absurd h hm
    · rwa [WithBot.coe_inj.mp h]
  · exact absurd ((hp _).mp hm').1 hm

/-- A key leaves the list only with a delete. -/
theorem lost (hab : a ≤ b) (ha : Present (e.shared a) (key : WithBot K))
    (hb : ¬ Present (e.shared b) (key : WithBot K)) : ∃ m i, a ≤ m ∧ m < b ∧ e.MarksAt m i key := by
  obtain ⟨m, ham, hmb, hm, hm'⟩ :=
    exists_first (p := fun m => ¬ Present (e.shared m) (key : WithBot K)) hab (not_not.mpr ha) hb
  rw [not_not] at hm
  refine ⟨m, ?_⟩
  obtain hp | ⟨key', hl, hp⟩ | ⟨i, key', hl, hp⟩ := e.contents_step m
  · exact absurd ((hp _).mpr hm) hm'
  · exact absurd ((hp _).mpr (Or.inl hm)) hm'
  refine ⟨i, ham, hmb, ?_⟩
  by_cases hk : key = key'
  · rwa [hk]
  · refine absurd ((hp _).mpr ⟨hm, ?_⟩) hm'
    exact fun h => hk (WithBot.coe_inj.mp h)

/-! ### Results of calls -/

theorem saw_node (hn : n < (e.shared b).top ∧ (e.shared b).pos n = key ∧
    Saw (Execution.Window e a b) (e.shared b) (Unmarked n)) : ∃ m, a ≤ m ∧ m ≤ b ∧
      KeyNode (e.shared m) key n := by
  obtain ⟨_, hpos, h₀, ⟨m, ham, hmb, rfl⟩, hle, hu⟩ := hn
  refine ⟨m, ham, hmb, e.keyNode_iff.mpr ⟨hu, ?_⟩⟩
  rw [← hle.pos n hu.1]
  exact hpos

theorem saw_absent (hs : Saw (Execution.Window e a b) h (NotFound (keyTarget key))) :
    ∃ m, a ≤ m ∧ m ≤ b ∧ ¬ Present (e.shared m) (key : WithBot K) := by
  obtain ⟨h₀, ⟨m, ham, hmb, rfl⟩, _, hn⟩ := hs
  exact ⟨m, ham, hmb, hn.absent (e.good m) (keyTarget_at key)⟩

variable {i start : Nat}

theorem InsertCall.window (hc : InsertCall e i a b start key n existed) :
    LflInv (Execution.Window e a b) (e.shared b) (.inserted start key (n, existed)) := by
  rw [← hc.result]
  exact hc.call.window lfl_relyGuarantee (Nat.le_of_lt hc.call.lt) (Nat.le_refl b)

theorem InsertCall.existing (hc : InsertCall e i a b start key n true) :
    ∃ m, a ≤ m ∧ m ≤ b ∧ KeyNode (e.shared m) key n := saw_node (hc.window rfl)

omit [LinearOrder K] in
theorem ofInsert_eq_inserted {start' : Nat} {s : Status SearchPc (Nat × Bool)} {r : Nat × Bool}
    (hs : LflThread.ofInsert start' key' s = .inserted start key r) : key' = key ∧
    s = .returned r := by
  cases s with
  | running pc => cases hs
  | returned r' =>
    cases hs
    exact ⟨rfl, rfl⟩

theorem InsertCall.linked (hc : InsertCall e i a b start key n false) :
    ∃ m, b = m + 1 ∧ a ≤ m ∧ n = (e.shared m).top ∧ Linked (key : WithBot K) (e.shared m)
      (e.shared (m + 1)) := by
  obtain ⟨m, rfl, ham, hs, hl⟩ := hc.call.last
  have hi := e.knows m i
  have hbusy := hc.call.busy m ham (lt_succ_self m)
  rw [hc.result] at hl
  refine ⟨m, rfl, ham, ?_⟩
  rw [hs]
  cases hloc : e.loc m i with
  | insert start' key' pc =>
    rw [hloc] at hi
    rw [hloc, lflStep_insert] at hl
    obtain ⟨rfl, hret⟩ := ofInsert_eq_inserted hl.symm
    have hpost := lflInsert_step (e.good m) hi trivial trivial
    rw [hret] at hpost
    exact hpost
  | delete key' pc =>
    rw [hloc, lflStep_delete] at hl
    cases hd : (lflDelete key' (e.shared m) pc).2 <;> simp [hd, LflThread.ofDelete] at hl
  | find key' pc =>
    rw [hloc, lflStep_find] at hl
    cases hd : (lflFind key' (e.shared m) pc).2 <;> simp [hd, LflThread.ofFind] at hl
  | idle => rw [hloc] at hbusy; exact absurd hbusy id
  | inserted start key r => rw [hloc] at hbusy; exact absurd hbusy id
  | deleted key r => rw [hloc] at hbusy; exact absurd hbusy id
  | foundNode key r => rw [hloc] at hbusy; exact absurd hbusy id

theorem InsertCall.linearizes
    (hc : InsertCall e i a b start key n existed) :
    ∃ m, a ≤ m ∧ m ≤ b ∧ (existed = true ↔ ∃ k, KeyNode (e.shared m) key k) ∧
      (existed = true → KeyNode (e.shared m) key n) ∧
      (existed = false → n = (e.shared m).top ∧ m < b ∧ KeyNode (e.shared (m + 1)) key n) := by
  cases existed with
  | true =>
    obtain ⟨m, ham, hmb, hk⟩ := hc.existing
    exact ⟨m, ham, hmb, ⟨fun _ => ⟨n, hk⟩, fun _ => rfl⟩, fun _ => hk, nofun⟩
  | false =>
    obtain ⟨m, rfl, ham, rfl, hl⟩ := hc.linked
    refine ⟨m, ham, le_succ m, ⟨nofun, fun h => ?_⟩, nofun, fun _ => ?_⟩
    · exact absurd (e.present_iff.mpr h) (hl.absent (e.good m))
    · exact ⟨rfl, lt_succ_self m, e.keyNode_iff.mpr hl.node⟩

theorem DeleteCall.window (hc : DeleteCall e i a b key r) :
    LflInv (Execution.Window e a b) (e.shared b) (.deleted key r) := by
  rw [← hc.result]
  exact hc.call.window lfl_relyGuarantee (Nat.le_of_lt hc.call.lt) (Nat.le_refl b)

theorem DeleteCall.fails (hc : DeleteCall e i a b key false) :
    ∃ m, a ≤ m ∧ m ≤ b ∧ ¬ Present (e.shared m) (key : WithBot K) := saw_absent (hc.window rfl)

/-! ### Deletes of one key -/

theorem delete_step (hloc : e.loc m i = .delete key pc) :
    e.loc (m + 1) i = e.loc m i ∨ ∃ s, e.loc (m + 1) i = .ofDelete key s ∧
      DeletePost (keyTarget key) key True (fun _ => True) (e.shared m) (e.shared (m + 1)) pc s := by
  by_cases hne : e.loc (m + 1) i = e.loc m i
  · exact Or.inl hne
  have hbusy : (lflMachine K).Busy (e.loc m i) := by
    rw [hloc]
    trivial
  obtain ⟨_, hs, hl⟩ := Execution.step_of_busy hbusy hne
  have hi := e.knows m i
  rw [hloc] at hi
  rw [hloc, lflStep_delete] at hs hl
  refine Or.inr ⟨_, hl, ?_⟩
  rw [hs]
  exact lflDelete_step (e.good m) hi trivial trivial

theorem MarksAt.changes (hm : e.MarksAt m i key) : e.loc (m + 1) i ≠ e.loc m i := by
  obtain ⟨pc, pc', hloc, hloc', hpc, hpc'⟩ := hm
  rw [hloc, hloc']
  intro heq
  cases heq
  exact hpc hpc'

theorem MarksAt.effect (hm : e.MarksAt m i key) :
    Present (e.shared m) (key : WithBot K) ∧ ¬ Present (e.shared (m + 1)) (key : WithBot K) := by
  obtain ⟨pc, pc', hloc, hloc', hpc, hpc'⟩ := hm
  rcases delete_step hloc with heq | ⟨s, hs, hpost⟩
  · rw [heq, hloc] at hloc'
    cases hloc'
    exact absurd hpc' hpc
  rw [hs] at hloc'
  cases s with
  | returned r => cases hloc'
  | running pc'' =>
    cases hloc'
    obtain ⟨_, ⟨_, hiff⟩ | ⟨_, _, n, hmark⟩⟩ := hpost
    · exact absurd (hiff.mp hpc') hpc
    · refine ⟨⟨n, hmark.1.1, hmark.1.2, hmark.2.1⟩, fun h => ?_⟩
      exact ((hmark.present (e.good m)).mp h).2 rfl

theorem marked_step (hloc : e.loc m i = .delete key pc) (hpc : pc.Marked) :
    (∃ pc', e.loc (m + 1) i = .delete key pc' ∧ pc'.Marked) ∨
      e.loc (m + 1) i = .deleted key true := by
  rcases delete_step hloc with heq | ⟨s, hs, hpost⟩
  · exact Or.inl ⟨pc, heq.trans hloc, hpc⟩
  cases s with
  | running pc' =>
    obtain ⟨_, ⟨_, hiff⟩ | ⟨hn, _, _⟩⟩ := hpost
    · exact Or.inl ⟨pc', hs, hiff.mpr hpc⟩
    · exact absurd hpc hn
  | returned r =>
    cases r with
    | true => exact Or.inr hs
    | false => exact absurd hpc hpost.2.1

theorem DeleteCall.succeeds (hc : DeleteCall e i a b key r) (ham : a ≤ m) (hmb : m < b)
    (hm : e.MarksAt m i key) : r = true := by
  obtain ⟨_, pc, _, hloc, _, hpc⟩ := hm
  have hstay : ∀ x, m + 1 ≤ x → x < b → ∃ pc, e.loc x i = .delete key pc ∧ pc.Marked := by
    intro x hmx
    induction x, hmx using le_induction with
    | base => exact fun _ => ⟨pc, hloc, hpc⟩
    | succ x hmx ih =>
      intro hxb
      obtain ⟨pc, hloc, hpc⟩ := ih (lt_of_succ_lt hxb)
      rcases marked_step hloc hpc with h | h
      · exact h
      · have hbusy :=
          hc.call.busy (x + 1) (Nat.le_trans ham (Nat.le_trans (le_succ m) (le_succ_of_le hmx))) hxb
        rw [h] at hbusy
        exact absurd hbusy id
  have hmb' : m + 1 < b := by
    refine Nat.lt_of_le_of_ne hmb ?_
    rintro rfl
    rw [hc.result] at hloc
    cases hloc
  obtain ⟨y, rfl⟩ := exists_eq_succ_of_ne_zero (Nat.ne_zero_of_lt hmb')
  obtain ⟨pc, hloc, hpc⟩ := hstay y (le_of_lt_succ hmb') (lt_succ_self y)
  rcases marked_step hloc hpc with ⟨pc', h, _⟩ | h
  · have hr := hc.result
    rw [succ_eq_add_one, h] at hr
    cases hr
  have hr := hc.result
  rw [succ_eq_add_one, h] at hr
  cases hr
  rfl

omit [LinearOrder K] in
theorem ofDelete_inj {s s' : Status DeletePc Bool}
    (hs : LflThread.ofDelete key s = .ofDelete key' s') : key = key' ∧ s = s' := by
  cases s <;> cases s' <;> cases hs <;> exact ⟨rfl, rfl⟩

theorem step_eq_delete (hbusy : l.Busy)
    (hs : (lflStep h l).2 = .ofDelete key s) : ∃ pc, l = .delete key pc := by
  cases l with
  | delete key' pc =>
    rw [lflStep_delete] at hs
    obtain ⟨rfl, _⟩ := ofDelete_inj hs
    exact ⟨pc, rfl⟩
  | insert start key' pc =>
    rw [lflStep_insert] at hs
    cases hd : (lflInsertFrom start key' h pc).2 <;> cases s <;> rw [hd] at hs <;> cases hs
  | find key' pc =>
    rw [lflStep_find] at hs
    cases hd : (lflFind key' h pc).2 <;> cases s <;> rw [hd] at hs <;> cases hs
  | idle => exact absurd hbusy id
  | inserted start key r => exact absurd hbusy id
  | deleted key r => exact absurd hbusy id
  | foundNode key r => exact absurd hbusy id

/-- A delete that has marked its node, or has returned with success. -/
def Done : Status DeletePc Bool → Prop
  | .running pc => pc.Marked
  | .returned r => r = true

theorem DeleteCall.marks (hc : DeleteCall e i a b key true) :
    ∃ m, a ≤ m ∧ m < b ∧ e.MarksAt m i key := by
  have ha : ¬ ∃ s, e.loc a i = .ofDelete key s ∧ Done s := by
    rintro ⟨s, hs, hd⟩
    rw [hc.invoked] at hs
    cases s <;> cases hs
    exact hd
  obtain ⟨m, ham, hmb, hm, s, hs, hd⟩ :=
    exists_first (p := fun x => ∃ s, e.loc x i = .ofDelete key s ∧ Done s)
    (Nat.le_of_lt hc.call.lt) ha ⟨.returned true, hc.result, rfl⟩
  have hne : e.loc (m + 1) i ≠ e.loc m i := fun heq => hm ⟨s, heq.symm.trans hs, hd⟩
  have hbusy := hc.call.busy m ham hmb
  obtain ⟨pc, hloc⟩ := step_eq_delete hbusy ((Execution.step_of_busy hbusy hne).2.2.symm.trans hs)
  have hpc : ¬ pc.Marked := fun hpc => hm ⟨.running pc, hloc, hpc⟩
  refine ⟨m, ham, hmb, ?_⟩
  rcases delete_step hloc with heq | ⟨s', hs', hpost⟩
  · exact absurd heq hne
  obtain ⟨_, rfl⟩ := ofDelete_inj (hs.symm.trans hs')
  cases s with
  | running pc' => exact ⟨pc, pc', hloc, hs, hpc, hd⟩
  | returned r =>
    obtain rfl : r = true := hd
    exact absurd hpost.2 hpc

theorem MarksAt.unique {m' j : Nat} (hlinks : ∀ x, a ≤ x → x < b → ¬ e.Links x key) (ham : a ≤ m)
    (hmb : m' < b) (hm : e.MarksAt m i key) (hm' : e.MarksAt m' j key) : m' ≤ m := by
  refine Nat.le_of_not_lt fun hlt => ?_
  obtain ⟨x, hmx, hxm, hl⟩ := gained hlt hm.effect.2 hm'.effect.1
  exact hlinks x (Nat.le_trans ham (le_of_succ_le hmx)) (Nat.lt_trans hxm hmb) hl

/-- From a moment when the key is in the list, with no insert that links it and with all of its
deletes between that moment and the last, exactly one delete returns success. -/
theorem delete_exactly_one (hn : KeyNode (e.shared a) key n)
    (hlinks : ∀ m, a ≤ m → m < b → ¬ e.Links m key)
    (hwithin : ∀ i m, a ≤ m → m ≤ b → e.Deleting m i key →
      ∃ a' b' r, a ≤ a' ∧ a' ≤ m ∧ m < b' ∧ b' ≤ b ∧ DeleteCall e i a' b' key r)
    (hsome : ∃ i a' b' r, a ≤ a' ∧ b' ≤ b ∧ DeleteCall e i a' b' key r) :
    ∃! c : Nat × Nat × Nat, a ≤ c.2.1 ∧ c.2.2 ≤ b ∧ DeleteCall e c.1 c.2.1 c.2.2 key true := by
  have hexists : ∃ i a' b', a ≤ a' ∧ b' ≤ b ∧ DeleteCall e i a' b' key true := by
    obtain ⟨i, a', b', r, haa, hbb, hc⟩ := hsome
    cases r with
    | true => exact ⟨i, a', b', haa, hbb, hc⟩
    | false =>
      -- the key had gone, so another delete of the window has marked it
      obtain ⟨x, hax, hxb, habs⟩ := hc.fails
      have hpres := e.present_iff.mpr ⟨n, hn⟩
      obtain ⟨m, j, ham, hmx, hm⟩ := lost (Nat.le_trans haa hax) hpres habs
      have hmb : m ≤ b := Nat.le_of_lt (Nat.lt_of_lt_of_le hmx (Nat.le_trans hxb hbb))
      have hdel : e.Deleting m j key := by
        obtain ⟨pc, _, hloc, _⟩ := hm
        exact ⟨pc, hloc⟩
      obtain ⟨a'', b'', r, haa', ham', hmb', hbb', hc'⟩ := hwithin j m ham hmb hdel
      obtain rfl := hc'.succeeds ham' hmb' hm
      exact ⟨j, a'', b'', haa', hbb', hc'⟩
  obtain ⟨i, a', b', haa, hbb, hc⟩ := hexists
  refine ⟨(i, a', b'), ⟨haa, hbb, hc⟩, ?_⟩
  rintro ⟨j, a'', b''⟩ ⟨haa', hbb', hc'⟩
  obtain ⟨m, ham, hmb, hm⟩ := hc.marks
  obtain ⟨m', ham', hmb', hm'⟩ := hc'.marks
  have hle := MarksAt.unique hlinks (Nat.le_trans haa ham) (Nat.lt_of_lt_of_le hmb' hbb') hm hm'
  have hge := MarksAt.unique hlinks (Nat.le_trans haa' ham') (Nat.lt_of_lt_of_le hmb hbb) hm' hm
  obtain rfl := Nat.le_antisymm hle hge
  obtain rfl : i = j := Execution.changed_unique hm.changes hm'.changes
  obtain ⟨rfl, rfl⟩ := hc.call.unique hc'.call ham hmb ham' hmb'
  rfl

end LflRun

/-- Every run of every program on one list. -/
theorem lfl_run (e : LflRun K) :
    (∀ m, Ordered (e.shared m)) ∧
    (∀ m m' n, m ≤ m' → n < (e.shared m).top → ((e.shared m).next n).marked = true →
      (e.shared m').next n = (e.shared m).next n) ∧
    (∀ i a b start key n existed, LflRun.InsertCall e i a b start key n existed →
      ∃ m, a ≤ m ∧ m ≤ b ∧ (existed = true ↔ ∃ k, KeyNode (e.shared m) key k) ∧
        (existed = true → KeyNode (e.shared m) key n) ∧
        (existed = false → n = (e.shared m).top ∧ m < b ∧ KeyNode (e.shared (m + 1)) key n)) ∧
    (∀ m n, n < (e.shared m).top → ((e.shared m).next n).marked = false →
      Reach (e.shared m) listHead n) ∧
    ∀ a b key n, KeyNode (e.shared a) key n → (∀ m, a ≤ m → m < b → ¬ e.Links m key) →
      (∀ i m, a ≤ m → m ≤ b → e.Deleting m i key →
        ∃ a' b' r, a ≤ a' ∧ a' ≤ m ∧ m < b' ∧ b' ≤ b ∧ LflRun.DeleteCall e i a' b' key r) →
      (∃ i a' b' r, a ≤ a' ∧ b' ≤ b ∧ LflRun.DeleteCall e i a' b' key r) →
      ∃! c : Nat × Nat × Nat, a ≤ c.2.1 ∧ c.2.2 ≤ b ∧
        LflRun.DeleteCall e c.1 c.2.1 c.2.2 key true := by
  refine ⟨fun m => (e.good m).ordered, fun m m' n hle hn hm => (e.le hle).frozen n hn hm,
    fun i a b start key n existed hc => hc.linearizes, fun m n hn hm => (e.good m).live n hn hm,
    fun a b key n hn hlinks hwithin hsome => LflRun.delete_exactly_one hn hlinks hwithin hsome⟩

end Sbcl.Lockless
