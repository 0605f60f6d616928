import Sbcl.Lib.Linearization
import Sbcl.Lib.Returns

/-!
# Lock-free FIFO queues (contrib/sb-concurrency/queue.lisp)

* `Queue` : the conses of a queue, with its head and its tail; `makeQueue`;
* `enqueueStep`, `dequeueStep` : each step reads or stores one cell or slot, or performs one
  compare-and-swap;
* `queueMachine` : any number of threads on one queue.
-/

namespace Sbcl.Concurrency

open Function

/-- What the CDR of a node is: `nil`, the next node, or `+dead-end+`. -/
inductive Cdr where
  | nil
  | cons (node : ℕ)
  | deadEnd
deriving DecidableEq

/-- Conses from `top` on are not allocated. -/
structure Queue (V : Type) where
  car : ℕ → V
  cdr : ℕ → Cdr
  top : ℕ
  head : ℕ
  tail : ℕ

variable {V : Type}

namespace Queue

def setCar (q : Queue V) (node : ℕ) (value : V) : Queue V :=
  { q with car := update q.car node value }

def setCdr (q : Queue V) (node : ℕ) (next : Cdr) : Queue V :=
  { q with cdr := update q.cdr node next }

/-- `(cons value nil)`, which is the node `q.top`. -/
def cons (q : Queue V) (value : V) : Queue V :=
  { q with car := update q.car q.top value, cdr := update q.cdr q.top .nil, top := q.top + 1 }

variable (q : Queue V) {node other : ℕ} (value : V) (next : Cdr)

theorem setCar_car_of_ne (h : other ≠ node) : (q.setCar node value).car other = q.car other := by
  simp [setCar, h]

@[simp] theorem setCdr_cdr_self : (q.setCdr node next).cdr node = next := by simp [setCdr]

theorem setCdr_cdr_of_ne (h : other ≠ node) : (q.setCdr node next).cdr other = q.cdr other := by
  simp [setCdr, h]

@[simp] theorem cons_car_self : (q.cons value).car q.top = value := by simp [cons]

theorem cons_car_of_ne (h : other ≠ q.top) :
    (q.cons value).car other = q.car other := by simp [cons, h]

@[simp] theorem cons_cdr_self : (q.cons value).cdr q.top = .nil := by simp [cons]

theorem cons_cdr_of_ne (h : other ≠ q.top) :
    (q.cons value).cdr other = q.cdr other := by simp [cons, h]

end Queue

variable (dummy : V)

/-- `make-queue`, without initial contents. -/
def makeQueue : Queue V where
  car _ := dummy
  cdr _ := .nil
  top := 1
  head := 0
  tail := 0

inductive EnqueuePc where
  | cons
  | readTail (new : ℕ)
  | casCdr (new tail : ℕ)
  | setTail (new : ℕ)
deriving DecidableEq

/-- `enqueue`. -/
def enqueueStep (value : V) (q : Queue V) : EnqueuePc → Queue V × Status EnqueuePc V
  | .cons => (q.cons value, .running (.readTail q.top))
  | .readTail new => (q, .running (.casCdr new q.tail))
  | .casCdr new tail =>
    if q.cdr tail = .nil then (q.setCdr tail (.cons new), .running (.setTail new)) else (q,
      .running (.readTail new))
  | .setTail new => ({ q with tail := new }, .returned value)

inductive DequeuePc (V : Type) where
  | readHead
  | readCdr (head : ℕ)
  | casHead (head next : ℕ)
  | readCar (head next : ℕ)
  | setCdr (head next : ℕ) (value : V)
  | setCar (next : ℕ) (value : V)
deriving DecidableEq

/-- `dequeue`; the empty queue has no value to return. -/
def dequeueStep (q : Queue V) : DequeuePc V → Queue V × Status (DequeuePc V) (Option V)
  | .readHead => (q, .running (.readCdr q.head))
  | .readCdr head =>
    match q.cdr head with
    | .nil => (q, .returned none)
    | .cons next => (q, .running (.casHead head next))
    | .deadEnd => (q, .running .readHead)
  | .casHead head next =>
    if q.head = head then ({ q with head := next }, .running (.readCar head next)) else (q,
      .running .readHead)
  | .readCar head next => (q, .running (.setCdr head next (q.car next)))
  | .setCdr head next value => (q.setCdr head .deadEnd, .running (.setCar next value))
  | .setCar next value => (q.setCar next dummy, .returned (some value))

/-! ## Threads -/

/-- A thread of a program on one queue; a result stays until the thread's next call. -/
inductive QueueThread (V : Type) where
  | idle
  | enqueue (value : V) (pc : EnqueuePc)
  | dequeue (pc : DequeuePc V)
  | enqueued (r : V)
  | dequeued (r : Option V)

namespace QueueThread

def Busy : QueueThread V → Prop
  | .enqueue _ _ | .dequeue _ => True
  | _ => False

def ofEnqueue (value : V) : Status EnqueuePc V → QueueThread V
  | .running pc => .enqueue value pc
  | .returned r => .enqueued r

def ofDequeue : Status (DequeuePc V) (Option V) → QueueThread V
  | .running pc => .dequeue pc
  | .returned r => .dequeued r

end QueueThread

inductive QueueInvoke : QueueThread V → Prop
  | enqueue (value : V) : QueueInvoke (.enqueue value .cons)
  | dequeue : QueueInvoke (.dequeue .readHead)

def queueStep (q : Queue V) : QueueThread V → Queue V × QueueThread V
  | .enqueue value pc =>
    let (q', s) := enqueueStep value q pc
    (q', .ofEnqueue value s)
  | .dequeue pc =>
    let (q', s) := dequeueStep dummy q pc
    (q', .ofDequeue s)
  | l => (q, l)

def queueMachine : Interleaving.Machine (Queue V) (QueueThread V) where
  Init q := q = makeQueue dummy
  idle := .idle
  Busy := QueueThread.Busy
  rest := id
  Invoke _ := QueueInvoke
  Step q l q' l' := (q', l') = queueStep dummy q l

/-- What a call does to the sequential queue. -/
def queueInterface : Interleaving.Interface (QueueThread V) (Interleaving.FifoOp V) (Option V) where
  op
    | .enqueue value _ => some (.enqueue value)
    | .dequeue _ => some .dequeue
    | _ => none
  result
    | .enqueued r => some (some r)
    | .dequeued r => some r
    | _ => none

end Sbcl.Concurrency
