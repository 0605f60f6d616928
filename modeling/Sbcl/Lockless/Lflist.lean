import Mathlib.Order.WithBot
import Sbcl.Lib.Interleaving
import Sbcl.Lib.MarkedList
import Sbcl.Lib.Returns

/-!
# Lock-free ordered lists (code/target-lflist.lisp)

The search, insert and delete macros as atomic steps, each of which reads one next pointer or
performs one compare-and-swap. A thread between two steps is at a program counter that carries its
local variables.

* `Target` : the comparisons of a search with the key it was given;
* `searchStep`, `insertStep`, `deleteStep`, `findStep` : the macros, for any list and key type;
* `lflInsertFrom`, `lflDelete`, `lflFind` : the lists keyed by a linear order `K`;
* `lflMachine` : any number of threads on one list;
* `finishIncompleteDeletions`.

A marked pointer stands for one without tag bits. A new node is invisible until it is linked, so its
allocation and the stores to it are one step with the compare-and-swap that links it.
-/

namespace Sbcl.Lockless

open MarkedList

section Macros
variable {P : Type}

/-- `compare<` and `compare=` of a node with the key. -/
structure Target (P : Type) [LE P] where
  lt : P → Bool
  eq : P → Bool
  lower : ∀ p p', p ≤ p' → lt p' = true → lt p = true

def cas (h : Heap P) (n : Nat) (old new : Next) : Heap P × Bool :=
  if h.next n = old then (h.setNext n new, true) else (h, false)

/-- The next pointer of the tail is never marked. -/
def nodeMarkedp (h : Heap P) : Ref → Bool
  | .tail => false
  | .node n => (h.next n).marked

inductive SearchPc where
  | searchAgain
  /-- `this` is about to become the node read last. -/
  | endTest (left : Nat) (leftNodeNext this : Ref)
  /-- LEFT is followed by RIGHT, which may be marked. -/
  | checkRight (left : Nat) (right : Ref)
  | remove (left : Nat) (leftNodeNext right : Ref)
  | found (right : Ref) (left : Nat)
  deriving DecidableEq

/-- Label `out` and the adjacency test. -/
def SearchPc.out (left : Nat) (leftNodeNext right : Ref) : SearchPc :=
  if leftNodeNext = right then .checkRight left right else .remove left leftNodeNext right

inductive DeletePc where
  | search (pc : SearchPc)
  | mark (this predecessor : Nat) (succ : Ref)
  | swing (this predecessor : Nat) (succ : Ref)
  /-- The search that unlinks the marked node. -/
  | finish (pc : SearchPc)
  deriving DecidableEq

section Order
variable [LE P]

/-- `lfl-search-macro`. -/
def searchStep (t : Target P) (head : Nat) (h : Heap P) : SearchPc → Heap P × SearchPc
  | .searchAgain =>
    let next := (h.next head).ref
    (h, .endTest head next next)
  | .endTest left leftNodeNext .tail => (h, .out left leftNodeNext .tail)
  | .endTest left leftNodeNext (.node this) =>
    let next := h.next this
    if next.marked then (h, .endTest left leftNodeNext next.ref)
    else if t.lt (h.pos this) then (h, .endTest this next.ref next.ref)
    else (h, .out left leftNodeNext (.node this))
  | .checkRight left right => (h, if nodeMarkedp h right then .searchAgain else .found right left)
  | .remove left leftNodeNext right =>
    let (h', swapped) := cas h left ⟨leftNodeNext, false⟩ ⟨right, false⟩
    (h', if swapped then .checkRight left right else .searchAgain)
  | .found right left => (h, .found right left)

/-- The node found, unless it is the tail or has another key. -/
def hit (t : Target P) (h : Heap P) : Ref → Option Nat
  | .tail => none
  | .node n => if t.eq (h.pos n) then some n else none

/-- `lfl-insert-macro`, with the position of the new node; returns the node and whether it existed.
-/
def insertStep (t : Target P) (position : P) (head : Nat) (h : Heap P) :
    SearchPc → Heap P × Status SearchPc (Nat × Bool)
  | .found right left =>
    match hit t h right with
    | some node => (h, .returned (node, true))
    | none =>
      if h.next left = ⟨right, false⟩ then (h.link left position right, .returned (h.top, false))
      else (h, .running .searchAgain)
  | pc =>
    let (h', pc') := searchStep t head h pc
    (h', .running pc')

/-- `lfl-delete-macro`; the search that cleans up starts at `listHead`. -/
def deleteStep (t : Target P) (head listHead : Nat) (h : Heap P) : DeletePc →
    Heap P × Status DeletePc Bool
  | .search (.found right left) =>
    match hit t h right with
    | none => (h, .returned false)
    | some this =>
      let succ := h.next this
      (h, .running (if succ.marked then .search .searchAgain else .mark this left succ.ref))
  | .search pc =>
    let (h', pc') := searchStep t head h pc
    (h', .running (.search pc'))
  | .mark this predecessor succ =>
    let (h', swapped) := cas h this ⟨succ, false⟩ ⟨succ, true⟩
    (h', .running (if swapped then .swing this predecessor succ else .search .searchAgain))
  | .swing this predecessor succ =>
    -- the old value is compared with SUCC and not with THIS, so a swing that succeeds is followed
    -- by a search
    let old := h.next predecessor
    let (h', _) := cas h predecessor ⟨.node this, false⟩ ⟨succ, false⟩
    (h', if old = ⟨succ, false⟩ then .returned true else .running (.finish .searchAgain))
  | .finish (.found _ _) => (h, .returned true)
  | .finish pc =>
    let (h', pc') := searchStep t listHead h pc
    (h', .running (.finish pc'))

def findStep (t : Target P) (head : Nat) (h : Heap P) : SearchPc →
    Heap P × Status SearchPc (Option Nat)
  | .found right _ => (h, .returned (hit t h right))
  | pc =>
    let (h', pc') := searchStep t head h pc
    (h', .running pc')

end Order

/-- The loop of `finish-incomplete-deletions`: `pred` is unmarked and NODE follows it. -/
def finishDeletions (h : Heap P) (pred : Nat) : Ref → Nat → Heap P
  | .tail, _ => h
  | .node _, 0 => h
  | .node node, fuel + 1 =>
    let next := h.next node
    if next.marked then finishDeletions (h.setNext pred ⟨next.ref, false⟩) pred next.ref fuel
    else finishDeletions h node next.ref fuel

/-- No other thread runs. -/
def finishIncompleteDeletions (h : Heap P) (listHead : Nat) : Heap P :=
  finishDeletions h listHead (h.next listHead).ref h.top

end Macros

/-! ## Lists keyed by a linear order -/

section Keyed
variable {K : Type} [LinearOrder K]

/-- The head is a sentinel without a key, before every key. -/
abbrev Lfl (K : Type) := Heap (WithBot K)

def listHead : Nat := 0

def makeOrderedList (K : Type) : Lfl K where
  pos _ := ⊥
  next _ := ⟨.tail, false⟩
  top := 1

def keyTarget (key : K) : Target (WithBot K) where
  lt nodeKey := decide (nodeKey < key)
  eq nodeKey := decide (key = nodeKey)
  lower p p' hp h := by
    rw [decide_eq_true_eq] at h ⊢
    exact lt_of_le_of_lt hp h

/-- `lfl-insert*`; `lfl-insert` starts at the head of the list. -/
def lflInsertFrom (head : Nat) (key : K) (h : Lfl K) (pc : SearchPc) :
    Lfl K × Status SearchPc (Nat × Bool) :=
  insertStep (keyTarget key) key head h pc

def lflDelete (key : K) (h : Lfl K) (pc : DeletePc) : Lfl K × Status DeletePc Bool :=
  deleteStep (keyTarget key) listHead listHead h pc

def lflFind (key : K) (h : Lfl K) (pc : SearchPc) : Lfl K × Status SearchPc (Option Nat) :=
  findStep (keyTarget key) listHead h pc

/-- A thread of a program on one list; a result stays until the thread's next call. -/
inductive LflThread (K : Type) where
  | idle
  | insert (start : Nat) (key : K) (pc : SearchPc)
  | delete (key : K) (pc : DeletePc)
  | find (key : K) (pc : SearchPc)
  | inserted (start : Nat) (key : K) (r : Nat × Bool)
  | deleted (key : K) (r : Bool)
  | foundNode (key : K) (r : Option Nat)

namespace LflThread

def Busy : LflThread K → Prop
  | .insert _ _ _ | .delete _ _ | .find _ _ => True
  | _ => False

def ofInsert (start : Nat) (key : K) : Status SearchPc (Nat × Bool) → LflThread K
  | .running pc => .insert start key pc
  | .returned r => .inserted start key r

def ofDelete (key : K) : Status DeletePc Bool → LflThread K
  | .running pc => .delete key pc
  | .returned r => .deleted key r

def ofFind (key : K) : Status SearchPc (Option Nat) → LflThread K
  | .running pc => .find key pc
  | .returned r => .foundNode key r

end LflThread

/-- `lfl-insert*` may start at any node of the list to the left of the key. -/
inductive LflInvoke (h : Lfl K) : LflThread K → Prop
  | insert (start : Nat) (key : K) : start < h.top → h.pos start < key →
  LflInvoke h (.insert start key .searchAgain)
  | delete (key : K) : LflInvoke h (.delete key (.search .searchAgain))
  | find (key : K) : LflInvoke h (.find key .searchAgain)

def lflStep (h : Lfl K) : LflThread K → Lfl K × LflThread K
  | .insert start key pc =>
    let (h', s) := lflInsertFrom start key h pc
    (h', .ofInsert start key s)
  | .delete key pc =>
    let (h', s) := lflDelete key h pc
    (h', .ofDelete key s)
  | .find key pc =>
    let (h', s) := lflFind key h pc
    (h', .ofFind key s)
  | l => (h, l)

def lflMachine (K : Type) [LinearOrder K] : Interleaving.Machine (Lfl K) (LflThread K) where
  Init h := h = makeOrderedList K
  idle := .idle
  Busy := LflThread.Busy
  rest := id
  Invoke := LflInvoke
  Step h l h' l' := h' = (lflStep h l).1 ∧ l' = (lflStep h l).2

end Keyed

end Sbcl.Lockless
