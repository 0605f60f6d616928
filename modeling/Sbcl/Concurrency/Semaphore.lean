import Mathlib.Data.Set.Card

/-!
# Semaphores (code/target-thread.lisp)

* `Semaphore` : the count, the count of the waiters and the token of the queue;
* `decrement`, `recheck` : the sections of `%decrement-semaphore` under the mutex, before and after
  a wait;
* `Step` : any number of threads on one semaphore, with the sections of `signal-semaphore` and the
  waits and wakes of `%condition-wait` and `condition-notify`;
* `Run` : the runs whose steps are taken as a condition allows.

The amounts that were signalled and taken are kept for the proofs, as is what the call of a thread
has taken. The token is the thread whose id was stored last, or none for 0. Deadlines are left out.
-/

namespace Sbcl.Concurrency.Semaphores

open Function

/-- The arguments of `wait-on-semaphore` and `try-semaphore`. -/
structure Request (N : Type) where
  n : ℕ
  timed : Bool
  notification : Option N
  pos : 0 < n

/-- How a call ends. -/
inductive Outcome where
  | took (count : ℤ)
  | failed
  | signalled
  | error (message : String)
  | unwound
deriving DecidableEq

/-- The next step of a thread. -/
inductive Pc (N : Type) where
  | rest (outcome : Outcome)
  | decrement (wait : Bool) (request : Request N)
  | signal (n : ℕ)
  | wait (request : Request N)
  | asleep (request : Request N)
  | returned (request : Request N)
  /-- The cleanup of a wait that is unwound. -/
  | passOn
  /-- The call ends without the mutex. -/
  | leave (outcome : Outcome)

structure Thread (N : Type) where
  pc : Pc N
  taken : ℕ

structure Semaphore (T N : Type) where
  count : ℤ
  waitcount : ℤ
  token : Option T
  status : N → Bool
  signalled : ℤ
  taken : ℤ

variable {T N : Type}

namespace Thread

def goto (th : Thread N) (pc : Pc N) : Thread N := { th with pc := pc }

def call (pc : Pc N) : Thread N := ⟨pc, 0⟩

/-- A sleeper that is woken. -/
def wakeUp (th : Thread N) : Thread N :=
  match th.pc with
  | .asleep request => th.goto (.returned request)
  | _ => th

end Thread

namespace Semaphore

variable [DecidableEq N]

/-- `make-semaphore`, with the statuses of the notification objects. -/
def make (count : ℕ) (status : N → Bool) : Semaphore T N := ⟨count, 0, none, status, 0, 0⟩

def success (sem : Semaphore T N) (request : Request N) : Semaphore T N :=
  { sem with
    count := sem.count - request.n
    taken := sem.taken + request.n
    status := request.notification.elim sem.status fun object => update sem.status object true }

/-- The status of the notification object is not cleared. -/
def notified (sem : Semaphore T N) (request : Request N) : Bool :=
  request.notification.elim false sem.status

def deregister (sem : Semaphore T N) : Semaphore T N := { sem with waitcount := sem.waitcount - 1 }

end Semaphore

/-- The thread that has taken what it asked for. -/
def took (sem : Semaphore T N) (request : Request N) : Thread N :=
  ⟨.rest (.took (sem.count - request.n)), request.n⟩

/-- From the acquisition of the mutex to its release, in `%decrement-semaphore` or in the wait it
calls. -/
def decrement [DecidableEq N] (me : T) (sem : Semaphore T N) (th : Thread N) (wait : Bool)
    (request : Request N) : Semaphore T N × Thread N :=
  if request.n ≤ sem.count then (sem.success request, took sem request)
  else if wait then ({ sem with waitcount := sem.waitcount + 1, token := some me },
    th.goto (.wait request))
  else (sem, th.goto (.rest .failed))

/-- The same after a wait that has the mutex again. -/
def recheck [DecidableEq N] (me : T) (sem : Semaphore T N) (th : Thread N) (request : Request N) :
    Semaphore T N × Thread N :=
  if request.n ≤ sem.count then ((sem.success request).deregister, took sem request)
  else ({ sem with token := some me }, th.goto (.wait request))

/-- The section of `signal-semaphore`, without the wake. -/
def Semaphore.signal (sem : Semaphore T N) (n : ℕ) : Semaphore T N :=
  { sem with
    count := sem.count + n
    signalled := sem.signalled + n
    token := if 0 < sem.waitcount then none else sem.token }

/-- How many `signal-semaphore` notifies. -/
def Semaphore.notifies (sem : Semaphore T N) (n : ℕ) : ℕ :=
  if 0 < sem.waitcount then (min sem.waitcount (sem.count + n)).toNat else 0

def statusNotCleared : String :=
  "~@<Semaphore notification object status not cleared on ~
              entry to ~S on ~S.~:@>"

/-! ## Steps -/

structure World (T N : Type) where
  sem : Semaphore T N
  thread : T → Thread N

def Pc.AtRest (pc : Pc N) : Prop := ∃ outcome, pc = .rest outcome

def Pc.Asleep (pc : Pc N) : Prop := ∃ request, pc = .asleep request

/-- Interrupts are allowed in the wait and while the mutex is acquired again. -/
def Pc.Interruptible : Pc N → Prop
  | .wait _ | .asleep _ | .returned _ => True
  | _ => False

variable [DecidableEq T]

namespace World

def set (w : World T N) (t : T) (th : Thread N) : World T N :=
  { w with thread := update w.thread t th }

def goto (w : World T N) (t : T) (pc : Pc N) : World T N := w.set t ((w.thread t).goto pc)

def wake (w : World T N) (woken : Finset T) : World T N :=
  { w with thread := fun u => if u ∈ woken then (w.thread u).wakeUp else w.thread u }

/-- A wake of so many takes sleepers, as many as it can. -/
structure Wakes (w : World T N) (most : ℕ) (woken : Finset T) : Prop where
  asleep : ∀ u ∈ woken, (w.thread u).pc.Asleep
  le : woken.card ≤ most
  all : woken.card = most ∨ ∀ u, (w.thread u).pc.Asleep → u ∈ woken

end World

variable [DecidableEq N]

/-- A step of the thread `t`. A thread with a timeout may find its time over in the wait, while it
acquires the mutex again, or when it has the mutex. -/
inductive Step : World T N → T → World T N → Prop
  | callDecrement (w : World T N) (t : T) (wait : Bool) (request : Request N) :
  (w.thread t).pc.AtRest →
      Step w t (w.set t (.call (if w.sem.notified request then .rest (.error statusNotCleared)
        else .decrement wait request)))
  | callSignal (w : World T N) (t : T) (n : ℕ) : (w.thread t).pc.AtRest → 0 < n →
    Step w t (w.set t (.call (.signal n)))
  | decrement (w : World T N) (t : T) (wait : Bool) (request : Request N) :
    (w.thread t).pc = .decrement wait request →
      Step w t ({ w with sem := (decrement t w.sem (w.thread t) wait request).1 }.set t
        (decrement t w.sem (w.thread t) wait request).2)
  | signal (w : World T N) (t : T) (n : ℕ) (woken : Finset T) : (w.thread t).pc = .signal n →
      w.Wakes (w.sem.notifies n) woken →
        Step w t (({ w with sem := w.sem.signal n }.wake woken).goto t (.rest .signalled))
  | sleep (w : World T N) (t : T) (request : Request N) : (w.thread t).pc = .wait request →
      Step w t (w.goto t (if w.sem.token = some t then .asleep request else .returned request))
  | spurious (w : World T N) (t : T) (request : Request N) : (w.thread t).pc = .asleep request →
      Step w t (w.goto t (.returned request))
  | timeout (w : World T N) (t : T) (request : Request N) : (w.thread t).pc = .asleep request →
    request.timed = true →
      Step w t (w.goto t (.leave .failed))
  | recheck (w : World T N) (t : T) (request : Request N) : (w.thread t).pc = .returned request →
      Step w t ({ w with sem := (recheck t w.sem (w.thread t) request).1 }.set t
        (recheck t w.sem (w.thread t) request).2)
  | expire (w : World T N) (t : T) (request : Request N) : (w.thread t).pc = .returned request →
    request.timed = true →
      Step w t (w.goto t (.leave .failed))
  | expireHeld (w : World T N) (t : T) (request : Request N) : (w.thread t).pc = .returned request →
    request.timed = true →
      Step w t ({ w with sem := w.sem.deregister }.goto t (.rest .failed))
  | unwind (w : World T N) (t : T) : (w.thread t).pc.Interruptible → Step w t (w.goto t .passOn)
  | passOn (w : World T N) (t : T) (woken : Finset T) : (w.thread t).pc = .passOn →
    w.Wakes 1 woken →
      Step w t ((w.wake woken).goto t (.leave .unwound))
  | leave (w : World T N) (t : T) (outcome : Outcome) : (w.thread t).pc = .leave outcome →
      Step w t ({ w with sem := w.sem.deregister }.goto t (.rest outcome))

/-- A new semaphore, and threads that have called nothing. -/
def World.initial (count : ℕ) (status : N → Bool) : World T N :=
  ⟨.make count status, fun _ => .call (.rest .signalled)⟩

/-- The states of the runs whose steps are taken as `ok` allows. -/
inductive Run (count : ℕ) (ok : World T N → T → World T N → Prop) : World T N → Prop
  | initial (status : N → Bool) : Run count ok (.initial count status)
  | step {w w' : World T N} {t : T} : Run count ok w → Step w t w' → ok w t w' → Run count ok w'

/-- A waiter that is going to look at the count again, or to wake another that does. -/
def World.OnItsWay (w : World T N) (t : T) : Prop :=
  (∃ request, (w.thread t).pc = .returned request) ∨
    (∃ request, (w.thread t).pc = .wait request ∧ w.sem.token ≠ some t) ∨ (w.thread t).pc = .passOn

/-- A waiter that was woken goes back to sleep, or gives up, and takes nothing. -/
def Absorbs (w : World T N) (t : T) (w' : World T N) : Prop :=
  (∃ request, (w.thread t).pc = .returned request) ∧
    ((∃ request, (w'.thread t).pc = .wait request) ∨ (w'.thread t).pc = .leave .failed ∨
      (w'.thread t).pc = .rest .failed)

/-- Where a wake is absorbed, no sleeper asks for at most the count, or as many others as the count
are on their way. -/
def WakeNotMissed (w : World T N) (t : T) (w' : World T N) : Prop :=
  Absorbs w t w' → (∀ u request, (w.thread u).pc = .asleep request → w.sem.count < request.n) ∨
    w.sem.count ≤ Set.ncard {u | w.OnItsWay u ∧ u ≠ t}

end Sbcl.Concurrency.Semaphores
