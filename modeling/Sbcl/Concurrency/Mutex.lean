import Mathlib.Data.Int.Notation
import Mathlib.Tactic.Common

/-!
# Mutexes on futexes (code/target-thread.lisp)

* `Words` : the state word and the owner word;
* `threadStep` : the compare-and-swaps, the decrement and the stores of `%try-mutex`,
  `%mutex-timedlock` and `release-mutex`;
* `Step` : any number of threads on one mutex, with the waits and wakes of the state word.

The owner is the thread itself, or none for the id 0.
-/

namespace Sbcl.Concurrency.Mutex

open Function

/-- How a call ends: with a value, with an error, or unwound by an interrupt. -/
inductive Outcome where
  | value (value : Bool)
  | error (message : String)
  | unwound
deriving DecidableEq

/-- The next step of a thread. A call of `%mutex-timedlock` has a timeout or has none. -/
inductive Pc where
  | rest (outcome : Outcome)
  | tryState
  | tryOwner
  | lockState (timed : Bool)
  | mark (timed : Bool)
  | wait (timed : Bool)
  | asleep (timed : Bool)
  | returned (timed : Bool)
  | contend (timed : Bool)
  | setOwner
  | releaseOwner
  | releaseState
  | storeZero
  | wake (outcome : Outcome)
deriving DecidableEq

/-- A thread, and whether it holds the mutex: from the swap of the state word to the swap of the
owner word. -/
structure Thread where
  pc : Pc
  holds : Bool
deriving DecidableEq

variable {T : Type}

structure Words (T : Type) where
  state : ℤ
  owner : Option T

namespace Thread

def goto (th : Thread) (pc : Pc) : Thread := { th with pc := pc }

def acquired : Thread := ⟨.setOwner, true⟩

end Thread

/-- The head of the loop of `%mutex-timedlock`, with the state that was seen. -/
def contested (timed : Bool) (c : ℤ) : Pc := if c = 2 then .wait timed else .mark timed

variable [DecidableEq T]

/-- A step of the thread `me`; a thread that is asleep or at rest, or that is about to wake another,
stays. -/
def threadStep (me : T) (words : Words T) (th : Thread) : Words T × Thread :=
  match th.pc with
  | .tryState => if words.state = 0 then ({ words with state := 1 }, .acquired) else (words,
    th.goto .tryOwner)
  | .tryOwner =>
    (words, th.goto
      (.rest (if words.owner = some me then .error "Recursive lock attempt ~S." else .value false)))
  | .lockState timed =>
    if words.state = 0 then ({ words with state := 1 }, .acquired) else (words,
      th.goto (contested timed words.state))
  | .mark timed =>
    (if words.state = 1 then { words with state := 2 } else words,
      th.goto (if words.state ≠ 0 then .wait timed else .contend timed))
  | .wait timed => (words, th.goto (if words.state = 2 then .asleep timed else .returned timed))
  | .returned timed => (words, th.goto (.contend timed))
  | .contend timed =>
    if words.state = 0 then ({ words with state := 2 }, .acquired) else (words,
      th.goto (contested timed words.state))
  | .setOwner => ({ words with owner := some me }, th.goto (.rest (.value true)))
  | .releaseOwner =>
    if words.owner = some me then ({ words with owner := none }, ⟨.releaseState, false⟩)
    else (words, th.goto (.rest (.value false)))
  | .releaseState =>
    ({ words with state := words.state - 1 },
      th.goto (if words.state = 1 then .rest (.value false) else .storeZero))
  | .storeZero => ({ words with state := 0 }, th.goto (.wake (.value false)))
  | .rest _ | .asleep _ | .wake _ => (words, th)

structure World (T : Type) where
  words : Words T
  thread : T → Thread

/-- The step is one of `threadStep`. -/
def Pc.Running : Pc → Prop
  | .rest _ | .asleep _ | .wake _ => False
  | _ => True

def Pc.AtRest (pc : Pc) : Prop := ∃ outcome, pc = .rest outcome

def Pc.Asleep (pc : Pc) : Prop := ∃ timed, pc = .asleep timed

/-- The first steps of `%try-mutex`, `%mutex-timedlock` and `release-mutex`. -/
def Pc.Entry : Pc → Prop
  | .tryState | .lockState _ | .releaseOwner => True
  | _ => False

/-- Interrupts are enabled in `futex-wait` only. -/
def Pc.Interruptible : Pc → Prop
  | .wait _ | .asleep _ | .returned _ => True
  | _ => False

namespace World

def set (w : World T) (t : T) (th : Thread) : World T := { w with thread := update w.thread t th }

def goto (w : World T) (t : T) (pc : Pc) : World T := w.set t ((w.thread t).goto pc)

end World

/-- A step of the thread `t`. A thread at rest may call any of the functions, whether it holds the
mutex or not. A thread that is asleep may return for no reason, or when its time is over, and an
interrupt may unwind its call, which wakes another. -/
inductive Step : World T → T → World T → Prop
  | call (w : World T) (t : T) (pc : Pc) : (w.thread t).pc.AtRest → pc.Entry →
  Step w t (w.goto t pc)
  | run (w : World T) (t : T) : (w.thread t).pc.Running →
      Step w t ({ w with words := (threadStep t w.words (w.thread t)).1 }.set t
        (threadStep t w.words (w.thread t)).2)
  | spurious (w : World T) (t : T) (timed : Bool) : (w.thread t).pc = .asleep timed →
    Step w t (w.goto t (.returned timed))
  | timeout (w : World T) (t : T) : (w.thread t).pc = .asleep true →
    Step w t (w.goto t (.rest (.value false)))
  | unwind (w : World T) (t : T) : (w.thread t).pc.Interruptible →
    Step w t (w.goto t (.wake .unwound))
  | wakeOne (w : World T) (t u : T) (outcome : Outcome) (timed : Bool) :
    (w.thread t).pc = .wake outcome →
      (w.thread u).pc = .asleep timed →
      Step w t ((w.goto t (.rest outcome)).goto u (.returned timed))
  | wakeNone (w : World T) (t : T) (outcome : Outcome) : (w.thread t).pc = .wake outcome →
      (∀ u, ¬ (w.thread u).pc.Asleep) → Step w t (w.goto t (.rest outcome))

/-- A new mutex, and threads that hold nothing. -/
def World.initial : World T := ⟨⟨0, none⟩, fun _ => ⟨.rest (.value false), false⟩⟩

inductive Reachable : World T → Prop
  | initial : Reachable World.initial
  | step {w w' : World T} {t : T} : Reachable w → Step w t w' → Reachable w'

/-- No thread holds the mutex. -/
def World.Free (w : World T) : Prop := ∀ t, (w.thread t).holds = false

end Sbcl.Concurrency.Mutex
