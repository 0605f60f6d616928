import Mathlib.Data.List.Infix

/-!
# Stack clean-up code (compiler/stack.lisp)

* `findPopped`, `nipLoop`, `nipValues`, `discardUnusedValues` : the calls that are emitted;
* `Code.run` : what they do to a stack;
* `nipValues_spec` : the calls below the lvars that are kept;
* `discard_exact` : the end stack of a block becomes the start stack of its successor.

A stack begins with its top. An AVER that fails is `none`.
-/

namespace Sbcl.Stacks

open List Option

variable {L : Type} [DecidableEq L]

/-- The calls, whose arguments may be NIL. -/
inductive Code (L : Type) where
  | popValues (lastPopped : Option L)
  | nipValues (lastNipped lastMoved : Option L) (moved : List L)
deriving DecidableEq

/-- The loop of `find-popped` -/
def findPopped (after : List L) : Option L → List L → Option (Option L × List L)
  | lastPopped, [] => if after = [] then some (lastPopped, []) else none
  | lastPopped, first :: rest =>
    if some first = after.head? then some (lastPopped, first :: rest) else findPopped after
      (some first) rest

/-- The loop of `nip-values`, up to where the stacks differ. -/
def nipLoop : Option L → List L → List L → List L → Option (Option L × List L × List L × List L)
  | lastMoved, qmoved, [], after => if after = [] then none else some (lastMoved, [], after, qmoved)
  | lastMoved, qmoved, first :: before, after =>
    if some first = after.head? then nipLoop (some first) (first :: qmoved) before after.tail
    else some (lastMoved, first :: before, after, qmoved)

/-- `nip-values`, to a depth. -/
def nipValues : ℕ → List L → List L → List L → Option (List (Code L))
  | 0, _, _, _ => none
  | depth + 1, before, after, qmoved =>
    if before = after then some []
    else if before.head? = after.head? then do
      let (lastMoved, before, after, qmoved) ← nipLoop none qmoved before after
      let (lastNipped, rest) ← findPopped after none before
      let code ← nipValues depth rest after qmoved
      some (.nipValues lastNipped lastMoved qmoved :: code)
    else none

/-- The clean-up code of `discard-unused-values` -/
def discardUnusedValues (endStack startStack : List L) : Option (List (Code L)) := do
  let (lastPopped, rest) ← findPopped startStack none endStack
  let nips ← (if rest = [] then some [] else nipValues (rest.length + 1) rest startStack [])
  some (if lastPopped.isSome then .popValues lastPopped :: nips else nips)

/-- Everything down to and including the lvar is removed. -/
def popThrough (lvar : L) : List L → Option (List L)
  | [] => none
  | first :: rest => if first = lvar then some rest else popThrough lvar rest

/-- The moved lvars are those on top of the stack, in reverse order. -/
def Code.run : Code L → List L → Option (List L)
  | .popValues (some lastPopped), stack => popThrough lastPopped stack
  | .nipValues (some lastNipped) (some lastMoved) moved, stack =>
    if moved.head? = some lastMoved ∧ moved.reverse <+: stack then
      (popThrough lastNipped (stack.drop moved.length)).map (moved.reverse ++ ·)
    else none
  | _, _ => none

def runCode : List (Code L) → List L → Option (List L)
  | [], stack => some stack
  | code :: rest, stack => (code.run stack).bind (runCode rest)

theorem popThrough_append {popped rest : List L} {lvar : L} (hnodup : (popped ++ rest).Nodup)
    (hlast : popped.getLast? = some lvar) : popThrough lvar (popped ++ rest) = some rest := by
  induction popped with
  | nil => cases hlast
  | cons first popped ih =>
    rw [cons_append, popThrough]
    cases popped with
    | nil =>
      obtain rfl : first = lvar := by simpa using hlast
      rw [if_pos rfl, nil_append]
    | cons second popped =>
      rw [getLast?_cons_cons] at hlast
      rw [cons_append, nodup_cons] at hnodup
      have hne : first ≠ lvar := by
        rintro rfl
        exact hnodup.1 (mem_append_left rest (mem_of_getLast? hlast))
      rw [if_neg hne]
      exact ih hnodup.2 hlast

theorem run_nipValues {kept popped rest : List L} {lastNipped lastMoved : L}
    (hnodup : (popped ++ rest).Nodup)
    (hmoved : kept.getLast? = some lastMoved) (hlast : popped.getLast? = some lastNipped) :
    (Code.nipValues (some lastNipped) (some lastMoved) kept.reverse).run (kept ++
      (popped ++ rest)) = some (kept ++ rest) := by
  have hcond : kept.reverse.head? = some lastMoved ∧ kept.reverse.reverse <+: kept ++
      (popped ++ rest) := by
    rw [head?_reverse, reverse_reverse]
    exact ⟨hmoved, prefix_append kept _⟩
  rw [Code.run, if_pos hcond, length_reverse, drop_left, popThrough_append hnodup hlast,
    reverse_reverse]
  rfl

/-! ## The loops -/

theorem findPopped_spec {after before : List L} (h : after <+ before) (last : Option L) :
    ∃ popped rest, before = popped ++ rest ∧ findPopped after last before =
      some (popped.getLast?.or last, rest) ∧ rest.head? = after.head? ∧ after <+ rest := by
  induction before generalizing last with
  | nil =>
    obtain rfl := sublist_nil.1 h
    exact ⟨[], [], rfl, rfl, rfl, h⟩
  | cons first before ih =>
    by_cases hfirst : some first = after.head?
    · exact ⟨[], first :: before, rfl, by rw [findPopped, if_pos hfirst]; rfl, hfirst, h⟩
    have hskip : after <+ before := by
      cases h with
      | cons _ h => exact h
      | cons_cons _ h => exact absurd rfl hfirst
    obtain ⟨popped, rest, rfl, hfind, hhead, hrest⟩ := ih hskip (some first)
    refine ⟨first :: popped, rest, rfl, ?_, hhead, hrest⟩
    rw [findPopped, if_neg hfirst, hfind, getLast?_cons]
    cases popped.getLast? <;> rfl

theorem nipLoop_spec {after before : List L} (h : after <+ before) (hne : before ≠ after)
    (last : Option L) (qmoved : List L) :
    ∃ moved before' after', before = moved ++ before' ∧ after = moved ++ after' ∧
      before'.head? ≠ after'.head? ∧
      nipLoop last qmoved before after = some (moved.getLast?.or last, before', after',
        moved.reverse ++ qmoved) := by
  induction before generalizing after last qmoved with
  | nil => exact absurd (sublist_nil.1 h).symm hne
  | cons first before ih =>
    by_cases hfirst : some first = after.head?
    · obtain ⟨second, after, rfl⟩ : ∃ second tail, after = second :: tail := by
        cases after with
        | nil => cases hfirst
        | cons second after => exact ⟨second, after, rfl⟩
      obtain rfl : first = second := Option.some.inj hfirst
      have hne' : before ≠ after := fun heq => hne (by rw [heq])
      obtain ⟨moved, before', after', rfl, rfl, hdiffer, hloop⟩ :=
        ih (cons_sublist_cons.1 h) hne' (some first) (first :: qmoved)
      refine ⟨first :: moved, before', after', rfl, rfl, hdiffer, ?_⟩
      rw [nipLoop, if_pos hfirst, tail_cons, hloop, getLast?_cons, reverse_cons, append_assoc]
      cases moved.getLast? <;> rfl
    · exact ⟨[], first :: before, after, rfl, rfl, hfirst, by rw [nipLoop, if_neg hfirst]; rfl⟩

/-- Below the lvars that are kept, the calls turn the one stack into the other. -/
theorem nipValues_spec {depth : ℕ} (kept : List L) {after before : List L}
    (hdepth : before.length < depth) (h : after <+ before)
    (hhead : before.head? = after.head?) (hnodup : before.Nodup) :
    ∃ code, nipValues depth before after kept.reverse = some code ∧ runCode code (kept ++ before) =
      some (kept ++ after) := by
  induction depth generalizing kept after before with
  | zero => exact absurd hdepth (Nat.not_lt_zero _)
  | succ depth ih =>
    rw [nipValues]
    by_cases heq : before = after
    · exact ⟨[], if_pos heq, by rw [heq]; rfl⟩
    rw [if_neg heq, if_pos hhead]
    obtain ⟨moved, before, after, rfl, rfl, hdiffer, hloop⟩ := nipLoop_spec h heq none kept.reverse
    obtain ⟨popped, rest, rfl, hfind, hrest, hsub⟩ :=
      findPopped_spec ((append_sublist_append_left moved).1 h) none
    -- a call removes something, from below something
    obtain ⟨lastMoved, hmoved⟩ : ∃ lastMoved, moved.getLast? = some lastMoved := by
      cases moved with
      | nil => exact absurd hhead hdiffer
      | cons first moved => exact ⟨_, getLast?_cons⟩
    obtain ⟨lastNipped, hnipped⟩ : ∃ lastNipped, popped.getLast? = some lastNipped := by
      cases popped with
      | nil => exact absurd hrest hdiffer
      | cons first popped => exact ⟨_, getLast?_cons⟩
    have hnodup' : (popped ++ rest).Nodup := (nodup_append.1 hnodup).2.1
    have hkept : (kept ++ moved).getLast? = some lastMoved := by
      rw [getLast?_append, hmoved, some_or]
    have hshort : rest.length < depth := by
      simp only [length_append] at hdepth
      have := length_pos_of_mem (mem_of_getLast? hmoved)
      omega
    obtain ⟨code, hcode, hrun⟩ := ih (kept ++ moved) hshort hsub hrest (nodup_append.1 hnodup').2.1
    rw [hloop, hmoved, ← reverse_append]
    simp only [bind_eq_bind, bind_some]
    rw [hfind, hnipped]
    simp only [bind_some]
    rw [hcode]
    refine ⟨_, rfl, ?_⟩
    rw [runCode, ← append_assoc, or_none, or_none, run_nipValues hnodup' hkept hnipped, bind_some,
      hrun, append_assoc]

/-- For all stacks of distinct lvars, one of which is a subsequence of the other. -/
theorem discard_exact (endStack startStack : List L) (h : startStack <+ endStack)
    (hnodup : endStack.Nodup) :
    ∃ code, discardUnusedValues endStack startStack = some code ∧
      runCode code endStack = some startStack := by
  obtain ⟨popped, rest, rfl, hfind, hhead, hsub⟩ := findPopped_spec h none
  have hnips : ∃ nips,
    (if rest = [] then some [] else nipValues (rest.length + 1) rest startStack []) = some nips ∧
      runCode nips rest = some startStack := by
    by_cases hnil : rest = []
    · subst hnil
      exact ⟨[], if_pos rfl, by rw [sublist_nil.1 hsub]; rfl⟩
    · rw [if_neg hnil]
      exact nipValues_spec [] (Nat.lt_succ_self _) hsub hhead (nodup_append.1 hnodup).2.1
  obtain ⟨nips, hnips, hrun⟩ := hnips
  unfold discardUnusedValues
  rw [hfind, or_none]
  simp only [bind_eq_bind, bind_some]
  rw [hnips]
  refine ⟨_, rfl, ?_⟩
  cases hlast : popped.getLast? with
  | none =>
    rw [getLast?_eq_none_iff.1 hlast]
    exact hrun
  | some last =>
    rw [isSome_some, if_pos rfl, runCode, Code.run, popThrough_append hnodup hlast]
    exact hrun

/-- Two runs below the lvars that are kept. -/
theorem discard_exact_seven : ∃ code, discardUnusedValues [1, 2, 3, 4, 5, 6, 7] [2, 4, 5,
    7] = some code ∧ runCode code [1, 2, 3, 4, 5, 6, 7] = some [2, 4, 5, 7] :=
  discard_exact [1, 2, 3, 4, 5, 6, 7] [2, 4, 5, 7] (by decide) (by decide)

end Sbcl.Stacks
