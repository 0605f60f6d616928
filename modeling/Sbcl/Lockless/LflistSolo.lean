import Sbcl.Lockless.LflistSpec

/-!
# List operations that run alone

Without steps of other threads every operation returns, and its result is that of the keys in the
list.

* `search_returns` : the search ends between two adjacent nodes;
* `insert_returns`, `delete_returns`, `find_returns` : the results and what becomes of the list.
-/

namespace Sbcl.Lockless

open MarkedList Status

variable {P : Type} [LinearOrder P] {fixed : P → Prop} {root start left n : Nat}
    {h h' : Heap P} {t : Target P}
    {p q : P} {lnn right : Ref}
variable {h₁ h₂ : Heap P} {pc pc' : SearchPc}

/-- The search as a step function that returns RIGHT and LEFT. -/
def searchLoop (t : Target P) (head : Nat) (h : Heap P) : SearchPc →
    Heap P × Status SearchPc (Ref × Nat)
  | .found right left => (h, .returned (right, left))
  | pc =>
    let (h', pc') := searchStep t head h pc
    (h', .running pc')

theorem searchLoop_of_ne (hpc : ∀ right left, pc ≠ .found right left) :
    searchLoop t start h pc = ((searchStep t start h pc).1,
      .running (searchStep t start h pc).2) := by
  cases pc with
  | found right left => exact absurd rfl (hpc right left)
  | _ => rfl

theorem searchLoop_returned (hs : searchLoop t start h pc = (h', .returned (right, left))) :
    pc = .found right left ∧ h = h' := by
  cases pc with
  | found r l =>
    cases hs
    exact ⟨rfl, rfl⟩
  | _ => cases hs

theorem searchLoop_running (hs : searchLoop t start h pc = (h', .running pc')) :
    searchStep t start h pc = (h', pc') ∧ ∀ right left, pc ≠ .found right left := by
  cases pc with
  | found right left => cases hs
  | _ =>
    cases hs
    exact ⟨rfl, nofun⟩

/-- Where the search of a thread that runs alone ends. -/
structure Bracket (t : Target P) (h : Heap P) (right : Ref) (left : Nat) : Prop where
  adjacent : Adjacent left right h
  isLeft : Left t h left
  isRight : Right t h right
  live : nodeMarkedp h right = false

theorem Bracket.first (hwf : WF fixed root h) (hb : Bracket t h right left) (hn : Unmarked n h)
    (hlt : t.lt (h.pos n) = false) : ∃ m, right = .node m ∧ h.pos m ≤ h.pos n := by
  have hlm : (h.next left).marked = false := by rw [hb.adjacent.2.1]
  rcases hwf.split hb.isLeft.1 hlm hn.1 hn.2 with hle | ⟨m, hm, hmn⟩
  · rw [t.lower _ _ hle hb.isLeft.2] at hlt
    cases hlt
  have hm' : right = .node m := by
    rw [hb.adjacent.2.1] at hm
    exact hm
  exact ⟨m, hm', hwf.reach_pos_le (hb.isRight m hm').1 hmn⟩

theorem search_next {r : Ref × Nat} (hpc : ∀ right left, pc ≠ .found right left)
    (hs : searchStep t start h pc = (h₁, pc')) (hr : Returns (searchLoop t start) h₁ pc' h' r) :
    Returns (searchLoop t start) h pc h' r := by
  refine .next ?_ hr
  rw [searchLoop_of_ne hpc, hs]

theorem checkRight_returns (start : Nat) (hadj : Adjacent left right h) (hl : Left t h left)
    (hr : Right t h right) (hlive : nodeMarkedp h right = false) :
    Returns (searchLoop t start) h (.checkRight left right) h (right, left) ∧
    Bracket t h right left := by
  have hfound : Returns (searchLoop t start) h (.found right left) h (right, left) := .done rfl
  refine ⟨search_next nofun ?_ hfound, hadj, hl, hr, hlive⟩
  simp [searchStep, hlive]

theorem right_tail : Right t h .tail := by
  rintro n ⟨⟩

omit [LinearOrder P] in
theorem cas_of_eq {old new : Next} (hn : h.next n = old) :
    cas h n old new = (h.setNext n new, true) := if_pos hn

/-- From the label `out` the search returns, having unlinked what is between LEFT and RIGHT. -/
theorem out_returns (start : Nat) (hnext : h.next left = ⟨lnn, false⟩) (hl : Left t h left)
    (hr : Right t h right) (hp : MarkedPath h lnn right) (hlive : nodeMarkedp h right = false) :
    ∃ h', Returns (searchLoop t start) h (.out left lnn right) h' (right, left) ∧ Tidy h h' ∧
      Bracket t h' right left := by
  unfold SearchPc.out
  by_cases heq : lnn = right
  · rw [if_pos heq]
    subst heq
    obtain ⟨hret, hb⟩ := checkRight_returns start ⟨hl.1, hnext, fun n hn => (hr n hn).1⟩ hl hr hlive
    exact ⟨h, hret, .same, hb⟩
  rw [if_neg heq]
  have ht : Tidy h (h.setNext left ⟨right, false⟩) := .unlink left lnn right hl.1 hnext hp
  have hlive' : nodeMarkedp (h.setNext left ⟨right, false⟩) right = false := by
    cases right with
    | tail => rfl
    | node k =>
      by_cases hk : k = left
      · rw [nodeMarkedp, hk, Heap.setNext_next_self]
      · rw [nodeMarkedp, Heap.setNext_next_of_ne _ hk]
        exact hlive
  have hadj : Adjacent left right (h.setNext left ⟨right, false⟩) :=
    ⟨hl.1, Heap.setNext_next_self _, fun n hn => (hr n hn).1⟩
  obtain ⟨hret, hb⟩ := checkRight_returns start hadj (hl.le ht.le) (hr.le ht.le) hlive'
  refine ⟨_, search_next nofun ?_ hret, ht, hb⟩
  simp only [searchStep, cas_of_eq hnext, if_true]

theorem walk_returns (start : Nat) (hwf : WF fixed root h) {this : Ref} {size : Nat}
    (hsize : (NodesFrom h this).card ≤ size)
    (hnext : h.next left = ⟨lnn, false⟩) (hl : Left t h left) (hp : MarkedPath h lnn this)
    (hin : InHeap h this) :
    ∃ h' right left', Returns (searchLoop t start) h (.endTest left lnn this) h' (right, left') ∧
      Tidy h h' ∧ Bracket t h' right left' := by
  induction size generalizing left lnn this with
  | zero =>
    cases this with
    | tail =>
      obtain ⟨h', hret, hrest⟩ := out_returns start hnext hl right_tail hp rfl
      exact ⟨h', .tail, left, search_next nofun rfl hret, hrest⟩
    | node k => exact absurd (nodesFrom_next hwf (hin k rfl)) (by omega)
  | succ size ih =>
    cases this with
    | tail =>
      obtain ⟨h', hret, hrest⟩ := out_returns start hnext hl right_tail hp rfl
      exact ⟨h', .tail, left, search_next nofun rfl hret, hrest⟩
    | node k =>
      have hk := hin k rfl
      have hsize' : (NodesFrom h (h.next k).ref).card ≤ size := by
        have := nodesFrom_next hwf hk
        omega
      have hin' := WF.inHeap_next hwf hk
      cases hm : (h.next k).marked with
      | true =>
        obtain ⟨h', right, left', hret, hrest⟩ := ih hsize' hnext hl (hp.snoc hk hm) hin'
        refine ⟨h', right, left', search_next nofun ?_ hret, hrest⟩
        simp only [searchStep, hm, if_true]
      | false =>
        have hknext : h.next k = ⟨(h.next k).ref, false⟩ := by rw [← hm]
        cases hlt : t.lt (h.pos k) with
        | true =>
          obtain ⟨h', right, left', hret, hrest⟩ := ih hsize' hknext ⟨hk, hlt⟩ (.refl _) hin'
          refine ⟨h', right, left', search_next nofun ?_ hret, hrest⟩
          simp only [searchStep, hm, hlt, if_true, Bool.false_eq_true, if_false]
        | false =>
          have hr : Right t h (.node k) := by
            rintro n ⟨rfl⟩
            exact ⟨hk, hlt⟩
          obtain ⟨h', hret, hrest⟩ := out_returns start hnext hl hr hp hm
          refine ⟨h', .node k, left, search_next nofun ?_ hret, hrest⟩
          simp only [searchStep, hm, hlt, Bool.false_eq_true, if_false]

theorem search_returns (hwf : WF fixed root h) (hstart : Left t h start)
    (hlive : (h.next start).marked = false) :
    ∃ h' right left, Returns (searchLoop t start) h .searchAgain h' (right, left) ∧ Tidy h h' ∧
      Bracket t h' right left := by
  obtain ⟨_, hnext, hin⟩ := WF.adjacent hwf hstart.1 hlive
  obtain ⟨h', right, left, hret, hrest⟩ :=
    walk_returns start hwf (Nat.le_refl _) hnext hstart (.refl _) hin
  exact ⟨h', right, left, search_next nofun rfl hret, hrest⟩

/-! ## The operations -/

theorem search_then {A R : Type} {step : Heap P → A → Heap P × Status A R} (g : SearchPc → A)
    {r : R} (hrun : ∀ h pc h₁ pc₁, (∀ right left, pc ≠ .found right left) →
      searchStep t start h pc = (h₁, pc₁) →
      step h (g pc) = (h₁, .running (g pc₁)))
        (hs : Returns (searchLoop t start) h pc h₁ (right, left))
    (hlast : Returns step h₁ (g (.found right left)) h₂ r) : Returns step h (g pc) h₂ r := by
  refine hs.embed id g (fun s a s₁ a₁ hr => ?_) fun s₀ a₀ hr => ?_
  · obtain ⟨hstep, hne⟩ := searchLoop_running hr
    exact hrun s a s₁ a₁ hne hstep
  · obtain ⟨rfl, rfl⟩ := searchLoop_returned hr
    exact hlast

theorem insertStep_of_ne (hpc : ∀ right left, pc ≠ .found right left) :
    insertStep t q start h pc = ((searchStep t start h pc).1,
      .running (searchStep t start h pc).2) := by
  cases pc with
  | found right left => exact absurd rfl (hpc right left)
  | _ => rfl

theorem findStep_of_ne (hpc : ∀ right left, pc ≠ .found right left) :
    findStep t start h pc = ((searchStep t start h pc).1,
      .running (searchStep t start h pc).2) := by
  cases pc with
  | found right left => exact absurd rfl (hpc right left)
  | _ => rfl

theorem insert_then {r : Nat × Bool}
    (hs : Returns (searchLoop t start) h .searchAgain h₁ (right, left))
    (hlast : insertStep t q start h₁ (.found right left) = (h₂, .returned r)) :
    Returns (insertStep t q start) h .searchAgain h₂ r := by
  refine search_then id (fun h pc h₁ pc₁ hpc hstep => ?_) hs (.done hlast)
  rw [id, insertStep_of_ne hpc, hstep, id]

theorem Bracket.hit_some (hb : Bracket t h right left) (hn : hit t h right = some n) :
    Unmarked n h ∧ t.eq (h.pos n) = true := by
  obtain ⟨rfl, heq⟩ := hit_eq_some hn
  exact ⟨⟨(hb.isRight n rfl).1, hb.live⟩, heq⟩

theorem Bracket.hit_none (hwf : WF fixed root h) (ht : t.At q) (hb : Bracket t h right left)
    (hn : hit t h right = none) : ¬ Present h q :=
  NotFound.absent hwf ht ⟨left, right, hb.adjacent, hb.isLeft, hb.isRight, hit_eq_none hn⟩

theorem Bracket.linked (ht : t.At q) (hb : Bracket t h right left) (hn : hit t h right = none) :
    Linked q h (h.link left q right) := by
  refine ⟨left, right, hb.isLeft.1, hb.adjacent.2.1, (ht.lt_iff _).mp hb.isLeft.2,
    fun n hn' => ?_, rfl⟩
  exact ht.lt_of_right hb.isRight (hit_eq_none hn) n hn'

theorem insert_returns (hwf : WF fixed root h) (ht : t.At q) (hstart : Left t h start)
    (hlive : (h.next start).marked = false) :
    ∃ h' n existed, Returns (insertStep t q start) h .searchAgain h' (n, existed) ∧
      Unmarked n h' ∧ h'.pos n = q ∧
      ∃ h₁, Tidy h h₁ ∧ ((existed = true ∧ h' = h₁) ∨ (existed = false ∧ Linked q h₁ h')) := by
  obtain ⟨h₁, right, left, hs, htidy, hb⟩ := search_returns hwf hstart hlive
  cases hhit : hit t h₁ right with
  | some n =>
    obtain ⟨hu, heq⟩ := hb.hit_some hhit
    exact ⟨h₁, n, true, insert_then hs (insertStep_hit hhit), hu, (ht.eq_iff _).mp heq, h₁, htidy,
      Or.inl ⟨rfl, rfl⟩⟩
  | none =>
    have hlinked := hb.linked ht hhit
    obtain ⟨hu, hpos⟩ := hlinked.node
    exact ⟨_, h₁.top, false, insert_then hs (insertStep_link hhit hb.adjacent.2.1), hu,
      hpos, h₁, htidy, Or.inr ⟨rfl, hlinked⟩⟩

theorem find_returns (hwf : WF fixed root h) (hstart : Left t h start)
    (hlive : (h.next start).marked = false) :
    ∃ h' right left, Returns (findStep t start) h .searchAgain h' (hit t h' right) ∧ Tidy h h' ∧
      Bracket t h' right left := by
  obtain ⟨h₁, right, left, hs, htidy, hb⟩ := search_returns hwf hstart hlive
  refine ⟨h₁, right, left,
    search_then id (fun h pc h₁ pc₁ hpc hstep => ?_) hs (.done findStep_found), htidy, hb⟩
  rw [id, findStep_of_ne hpc, hstep, id]

omit [LinearOrder P] in
theorem Unmarked.of_tidy (ht : Tidy h h') (hn : Unmarked n h) : Unmarked n h' := by
  cases ht with
  | same => exact hn
  | unlink left r r' _ hnext _ =>
    refine ⟨hn.1, ?_⟩
    by_cases heq : n = left
    · rw [heq, Heap.setNext_next_self]
    · rw [Heap.setNext_next_of_ne _ heq]
      exact hn.2

/-- The search after a swing ends the delete. -/
theorem finish_returns (hwf : WF fixed root h) (hstart : Left t h start)
    (hlive : (h.next start).marked = false) :
    ∃ h', Returns (deleteStep t start start) h (.finish .searchAgain) h' true ∧ Tidy h h' := by
  obtain ⟨h', right, left, hs, htidy, _⟩ := search_returns hwf hstart hlive
  refine ⟨h', search_then DeletePc.finish (fun h pc h₁ pc₁ hpc hstep => ?_) hs (.done rfl), htidy⟩
  rw [deleteStep_finish hpc, hstep]

theorem delete_returns (hwf : WF fixed root h) (ht : t.At q) (hfix : ¬ fixed q)
    (hstart : Left t h start) (hlive : (h.next start).marked = false) :
    ∃ h' r, Returns (deleteStep t start start) h (.search .searchAgain) h' r ∧ ∃ h₁, Tidy h h₁ ∧
      ((r = false ∧ h' = h₁ ∧ ¬ Present h₁ q) ∨
        (r = true ∧ ∃ n h₂ h₃, Marks q n h₁ h₂ ∧ Tidy h₂ h₃ ∧ Tidy h₃ h')) := by
  obtain ⟨h₁, right, left, hs, htidy, hb⟩ := search_returns hwf hstart hlive
  have hthen : ∀ {h₂ r}, Returns (deleteStep t start start) h₁ (.search (.found right left)) h₂ r →
      Returns (deleteStep t start start) h (.search .searchAgain) h₂ r := by
    intro h₂ r hlast
    refine search_then DeletePc.search (fun h pc h₁ pc₁ hpc hstep => ?_) hs hlast
    rw [deleteStep_search hpc, hstep]
  have hwf₁ := htidy.wf hwf
  cases hhit : hit t h₁ right with
  | none =>
    have habs := hb.hit_none hwf₁ ht hhit
    exact ⟨h₁, false, hthen (.done (deleteStep_none hhit)), h₁, htidy, Or.inl ⟨rfl, rfl, habs⟩⟩
  | some n =>
    obtain ⟨hu, heq⟩ := hb.hit_some hhit
    obtain ⟨hr, _⟩ := hit_eq_some hhit
    have hpos : h₁.pos n = q := (ht.eq_iff _).mp heq
    have hleft : h₁.next left = ⟨.node n, false⟩ := by rw [hb.adjacent.2.1, hr]
    have hge := (hb.isRight n hr).2
    have hne {k : Nat} (hk : Left t h₁ k) : k ≠ n := by
      rintro rfl
      rw [hk.2] at hge
      cases hge
    have hnext : h₁.next n = ⟨(h₁.next n).ref, false⟩ := by rw [← hu.2]
    -- the node is marked, then its predecessor skips it, and then the list is searched again
    let h₂ := h₁.setNext n ⟨(h₁.next n).ref, true⟩
    have hleft₂ : h₂.next left = ⟨.node n, false⟩ :=
      (Heap.setNext_next_of_ne _ (hne hb.isLeft)).trans hleft
    have hn₂ : h₂.next n = ⟨(h₁.next n).ref, true⟩ := Heap.setNext_next_self _
    have hmark : Marks q n h₁ h₂ := ⟨hu, hpos, rfl⟩
    have hpath : MarkedPath h₂ (.node n) (h₁.next n).ref := by
      refine .step hu.1 (by rw [hn₂]) ?_
      rw [hn₂]
      exact .refl _
    let h₃ := h₂.setNext left ⟨(h₁.next n).ref, false⟩
    have htidy₃ : Tidy h₂ h₃ := .unlink left (.node n) _ hb.isLeft.1 hleft₂ hpath
    have hwf₃ : WF fixed root h₃ := htidy₃.wf (hwf₁.mark hu.1 (hpos ▸ hfix))
    have hstart₁ := hstart.le htidy.le
    have hlive₁ : Unmarked start h₁ := .of_tidy htidy ⟨hstart.1, hlive⟩
    have hlive₂ : Unmarked start h₂ :=
      ⟨hlive₁.1, by rw [Heap.setNext_next_of_ne _ (hne hstart₁)]; exact hlive₁.2⟩
    obtain ⟨h', hfinish, htidy'⟩ :=
      finish_returns hwf₃ (hstart₁.le htidy₃.le) (hlive₂.of_tidy htidy₃).2
    refine ⟨h', true, hthen ?_, h₁, htidy, Or.inr ⟨rfl, n, h₂, h₃, hmark, htidy₃, htidy'⟩⟩
    refine .next (deleteStep_hit hhit) ?_
    rw [if_neg (by rw [hu.2]; exact Bool.false_ne_true)]
    have hmarkStep : deleteStep t start start h₁ (.mark n left (h₁.next n).ref) =
        (h₂, .running (.swing n left (h₁.next n).ref)) := by
      simp only [deleteStep, cas_of_eq hnext, if_true]
      rfl
    have hold : (⟨.node n, false⟩ : Next) ≠ ⟨(h₁.next n).ref, false⟩ := by
      intro hsucc
      have hself : Succ h₁ n n := (Next.mk.inj hsucc).1.symm
      exact lt_irrefl _ (hwf₁.sorted n hu.1 n hself).2
    have hswing : deleteStep t start start h₂ (.swing n left (h₁.next n).ref) =
        (h₃, .running (.finish .searchAgain)) := by
      simp only [deleteStep, cas_of_eq hleft₂, hleft₂, if_neg hold]
      rfl
    exact .next hmarkStep (.next hswing hfinish)

end Sbcl.Lockless
