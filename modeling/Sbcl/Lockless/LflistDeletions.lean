import Sbcl.Lockless.LflistCorrect

/-!
# Deletions whose thread has died

* `tidied` : what the steps that unlink marked nodes keep;
* `Clean` : no marked node is left up to the one where the loop stands, its invariant;
* `finish_incomplete_deletions` : afterwards the nodes of the list are the unmarked ones.
-/

namespace Sbcl.Lockless

open MarkedList

section Finish

variable {P : Type} {fixed : P → Prop} {root pred n : Nat} {h h' : Heap P} {node : Ref}

theorem tidy_keeps (ht : Tidy h h') : h'.pos = h.pos ∧ ∀ n, Unmarked n h' ↔ Unmarked n h := by
  cases ht with
  | same => exact ⟨rfl, fun _ => Iff.rfl⟩
  | unlink left r r' _ hnext _ =>
    refine ⟨rfl, fun n => and_congr_right fun _ => ?_⟩
    by_cases hn : n = left
    · rw [hn, Heap.setNext_next_self, hnext]
    · rw [Heap.setNext_next_of_ne _ hn]

variable [LinearOrder P]

theorem tidied (hwf : WF fixed root h) (ht : Relation.ReflTransGen Tidy h h') :
    WF fixed root h' ∧ h'.pos = h.pos ∧ ∀ n, Unmarked n h' ↔ Unmarked n h := by
  induction ht with
  | refl => exact ⟨hwf, rfl, fun _ => Iff.rfl⟩
  | tail _ hlast ih =>
    obtain ⟨hwf, hpos, hlive⟩ := ih
    obtain ⟨hpos', hlive'⟩ := tidy_keeps hlast
    exact ⟨hlast.wf hwf, hpos'.trans hpos, fun n => (hlive' n).trans (hlive n)⟩

/-- No marked node is left up to `pred`. -/
def Clean (root : Nat) (h : Heap P) (pred : Nat) : Prop :=
  ∀ n, Reach h root n → h.pos n ≤ h.pos pred → (h.next n).marked = false

/-- What `root` reaches lies up to `pred`, or is reached from its successor. -/
theorem reach_split (hwf : WF fixed root h) (hpred : pred < h.top)
    (hnext : h.next pred = ⟨node, false⟩)
    (hn : Reach h root n) : h.pos n ≤ h.pos pred ∨ ∃ k, node = .node k ∧ Reach h k n := by
  rcases reach_total (hwf.live pred hpred (by rw [hnext])) hn with hr | hr
  · rcases Relation.ReflTransGen.cases_head hr with rfl | ⟨k, hk, hkn⟩
    · exact .inl (le_refl _)
    · rw [Succ, hnext] at hk
      exact .inr ⟨k, hk, hkn⟩
  · exact .inl (hwf.reach_pos_le (hwf.reach hwf.root_lt hn).1 hr)

theorem Clean.next {k : Nat} (hclean : Clean root h pred) (hwf : WF fixed root h)
    (hpred : pred < h.top)
    (hnext : h.next pred = ⟨.node k, false⟩) (hk : k < h.top) (hm : (h.next k).marked = false) :
    Clean root h k := by
  intro n hn hle
  rcases reach_split hwf hpred hnext hn with hn' | ⟨_, ⟨rfl⟩, hkn⟩
  · exact hclean n hn hn'
  · rcases (hwf.reach hk hkn).2 with rfl | hlt
    · exact hm
    · exact absurd hlt (not_lt.mpr hle)

theorem Clean.unlink {r : Ref} (hclean : Clean root h pred)
    (hwf : WF fixed root (h.setNext pred ⟨r, false⟩)) :
    Clean root (h.setNext pred ⟨r, false⟩) pred := by
  intro n hn hle
  by_cases hnp : n = pred
  · rw [hnp, Heap.setNext_next_self]
  rw [Heap.setNext_next_of_ne _ hnp]
  refine hclean n (hwf.reach_congr hwf.root_lt hn fun x _ _ hx => ?_) hle
  have hxp : x ≠ pred := by
    rintro rfl
    exact absurd hx (not_lt.mpr hle)
  rw [Heap.setNext_next_of_ne _ hxp]

theorem Clean.tail (hclean : Clean root h pred) (hwf : WF fixed root h) (hpred : pred < h.top)
    (hnext : h.next pred = ⟨.tail, false⟩) (hn : Reach h root n) : (h.next n).marked = false :=
  hclean n hn ((reach_split hwf hpred hnext hn).resolve_right fun ⟨_, hk, _⟩ => nomatch hk)

theorem nodesFrom_setNext (nx : Next) (r : Ref) : NodesFrom (h.setNext n nx) r = NodesFrom h r := by
  cases r <;> rfl

theorem finishDeletions_spec {fuel : Nat} (hwf : WF fixed root h)
    (hfuel : (NodesFrom h node).card ≤ fuel)
    (hpred : pred < h.top) (hnext : h.next pred = ⟨node, false⟩) (hclean : Clean root h pred) :
    Relation.ReflTransGen Tidy h (finishDeletions h pred node fuel) ∧
      ∀ n, Reach (finishDeletions h pred node fuel) root n →
        ((finishDeletions h pred node fuel).next n).marked = false := by
  induction fuel generalizing h pred node with
  | zero =>
    cases node with
    | tail => exact ⟨.refl, fun n hn => hclean.tail hwf hpred hnext hn⟩
    | node k =>
      have hk := (hwf.sorted pred hpred k (by rw [Succ, hnext])).1
      exact absurd (nodesFrom_next hwf hk) (by omega)
  | succ fuel ih =>
    cases node with
    | tail => exact ⟨.refl, fun n hn => hclean.tail hwf hpred hnext hn⟩
    | node k =>
      have hk := (hwf.sorted pred hpred k (by rw [Succ, hnext])).1
      have hfuel' := nodesFrom_next hwf hk
      cases hm : (h.next k).marked with
      | true =>
        have ht : Tidy h (h.setNext pred ⟨(h.next k).ref, false⟩) :=
          .unlink pred (.node k) _ hpred hnext (.step hk hm (.refl _))
        have hwf' := ht.wf hwf
        rw [← nodesFrom_setNext (n := pred) ⟨(h.next k).ref, false⟩] at hfuel'
        obtain ⟨hrest, hlive⟩ :=
          ih hwf' (by omega) hpred (Heap.setNext_next_self _) (hclean.unlink hwf')
        simp only [finishDeletions, hm, if_true]
        exact ⟨.head ht hrest, hlive⟩
      | false =>
        simp only [finishDeletions, hm, Bool.false_eq_true, if_false]
        exact ih hwf (by omega) hk (by rw [← hm]) (hclean.next hwf hpred hnext hk hm)

theorem finishIncompleteDeletions_spec (hwf : WF fixed root h) :
    Relation.ReflTransGen Tidy h (finishIncompleteDeletions h root) ∧
      ∀ n, Reach (finishIncompleteDeletions h root) root n →
        ((finishIncompleteDeletions h root).next n).marked = false := by
  have hlive := hwf.fixed_live root hwf.root_lt hwf.root_fixed
  refine finishDeletions_spec hwf ?_ hwf.root_lt (by rw [← hlive]) fun n hn hle => ?_
  · cases hr : (h.next root).ref with
    | tail => exact Nat.zero_le _
    | node k => exact (Finset.card_filter_le _ _).trans (Finset.card_range _).le
  · rcases (hwf.reach hwf.root_lt hn).2 with rfl | hlt
    · exact hlive
    · exact absurd hlt (not_lt.mpr hle)

end Finish

section Run

variable {K : Type} [LinearOrder K]

/-- When no thread runs any more, whichever deletes are incomplete, afterwards the list holds
exactly the nodes that were not deleted, in order. -/
theorem finish_incomplete_deletions (e : LflRun K) (m : ℕ) :
    (∀ n, Reach (finishIncompleteDeletions (e.shared m) listHead) listHead n ↔
      Unmarked n (e.shared m)) ∧
      (∀ n, Unmarked n (finishIncompleteDeletions (e.shared m) listHead) ↔
        Unmarked n (e.shared m)) ∧
      (finishIncompleteDeletions (e.shared m) listHead).pos = (e.shared m).pos ∧
      Ordered (finishIncompleteDeletions (e.shared m) listHead) := by
  obtain ⟨htidy, hlive⟩ := finishIncompleteDeletions_spec (LflRun.good e m)
  obtain ⟨hwf, hpos, hsame⟩ := tidied (LflRun.good e m) htidy
  refine ⟨fun n => ⟨fun hn => ?_, fun hn => ?_⟩, hsame, hpos, LflGood.ordered hwf⟩
  · exact (hsame n).mp ⟨(hwf.reach hwf.root_lt hn).1, hlive n hn⟩
  · obtain ⟨hn, hm⟩ := (hsame n).mpr hn
    exact hwf.live n hn hm

end Run

end Sbcl.Lockless
