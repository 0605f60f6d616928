import Sbcl.Integer

/-!
# Reader-writer locks (code/rwlock.lisp)

* `Rwlock` : the state word, the writer's thread id, and the pending slots of the readers and of the
  writers;
* `threadStep` : the steps of `rwlock-rdlock`, `rwlock-wrlock` and `rwlock-unlock`, each of which
  reads or swaps the state word, reads or stores the thread id, or is a section of the mutex;
* `Step` : any number of threads on one lock, with the waits and wakes of the futex words.

Both sides run the same code on their own slots, so the functions take the side. The wake words are
counted without wrapping; the code sees what is left of them modulo 2^32.
-/

namespace Sbcl.Concurrency

open Function

inductive Side where
  | reader
  | writer
deriving DecidableEq

def ownedByWriter : ℤ := ash 1 31

def pendingReadersFlag : ℤ := 1

def pendingWritersFlag : ℤ := 2

def readerCountShift : ℤ := 2

/-- The pending flag of a side. -/
def Side.flag : Side → ℤ
  | .reader => pendingReadersFlag
  | .writer => pendingWritersFlag

def rwlLockedP (state : ℤ) : Bool := ldb 30 2 state ≠ 0

def rwlOwnedByWriterP (state : ℤ) : Bool := state.testBit 31

/-- `can-acquire-for-read` and `can-acquire-for-write`. -/
def canAcquire : Side → ℤ → Bool
  | .reader, state => logand state (logior ownedByWriter pendingWritersFlag) = 0
  | .writer, state => !rwlLockedP state

/-- The state after `rwlock-tryrdlock` or `rwlock-trywrlock`. -/
def acquired : Side → ℤ → ℤ
  | .reader, old => old + ash 1 readerCountShift
  | .writer, old => logior old ownedByWriter

/-- The state after `rwlock-unlock`. -/
def released : Side → ℤ → ℤ
  | .reader, old => old - ash 1 readerCountShift
  | .writer, old => logand old (lognot ownedByWriter)

/-- The number of outstanding `rdlock` invocations. -/
def readerCount (state : ℤ) : ℤ := ldb 29 2 state

/-! ## Threads -/

/-- The futex word, which is increased by each wake, and the count of the pending threads. -/
structure Pending where
  wakeWord : ℕ
  count : ℕ
deriving DecidableEq

structure Rwlock where
  state : ℤ
  writerTid : ℕ
  pending : Side → Pending

/-- What is stored of a wake word. -/
def word (wakes : ℕ) : ℕ := wakes % 2 ^ 32

/-- The next step of a thread. A wait carries the serial that was read in the mutex. -/
inductive Pc where
  /-- The message of the error, if the call signalled one. -/
  | rest (error : Option String)
  | tryLock (side : Side) (slow : Bool)
  | casLock (side : Side) (slow : Bool) (old : ℤ)
  | setTid
  | checkTid (side : Side)
  | readState (side : Side)
  | register (side : Side)
  | wait (side : Side) (serial : ℕ)
  | asleep (side : Side) (serial : ℕ)
  | deregister (side : Side)
  | unlock
  | averTid
  | clearTid
  | readRelease (side : Side)
  | casRelease (side : Side) (old : ℤ)
  | wakeSection
  | wake (side : Side)
deriving DecidableEq

/-- A thread, with how often it holds the lock for read and whether it holds it for write. -/
structure Thread where
  pc : Pc
  reading : ℕ
  writing : Bool
deriving DecidableEq

namespace Thread

def goto (th : Thread) (pc : Pc) : Thread := { th with pc := pc }

/-- What the thread holds after its compare-and-swap. -/
def acquire (th : Thread) : Side → Thread
  | .reader => { pc := .rest none, reading := th.reading + 1, writing := th.writing }
  | .writer => { pc := .setTid, reading := th.reading, writing := true }

def release (th : Thread) (pc : Pc) : Side → Thread
  | .reader => { pc := pc, reading := th.reading - 1, writing := th.writing }
  | .writer => { pc := pc, reading := th.reading, writing := false }

end Thread

/-- The loop of `rwlock-tryrdlock` or `rwlock-trywrlock`, which was called by `%rwlock-rdlock` or
`%rwlock-wrlock` when it is the slow one. -/
def attempt (side : Side) (slow : Bool) (old : ℤ) : Pc :=
  if canAcquire side old then
    if side = .reader ∧ (acquired side old).testBit 31 then .rest (some "Too many readers")
      else .casLock side slow old
  else if slow then .readState side else .checkTid side

def tidError : Side → String
  | .reader => "Can't acquire lock for read when locked for write"
  | .writer => "Can't recursively acquire write lock"

/-- What `rwlock-unlock` does after the release, with the state before it. -/
def afterRelease (side : Side) (state : ℤ) : Pc :=
  if side = .reader ∧ ash 2 readerCountShift ≤ state then .rest none
  else if logand state 3 ≠ 0 then .wakeSection else .rest none

namespace Rwlock

def setPending (lock : Rwlock) (side : Side) (pending : Pending) : Rwlock :=
  { lock with pending := update lock.pending side pending }

/-- `make-rwlock`. -/
def make : Rwlock := ⟨0, 0, fun _ => ⟨0, 0⟩⟩

/-- The mutex section before a wait. -/
def register (lock : Rwlock) (side : Side) : Rwlock :=
  { lock.setPending side { lock.pending side with count := (lock.pending side).count + 1 } with
    state := logior lock.state side.flag }

/-- The mutex section after a wait. -/
def deregister (lock : Rwlock) (side : Side) : Rwlock :=
  let count := (lock.pending side).count - 1
  { lock.setPending side { lock.pending side with count := count } with
    state := if count = 0 then logand lock.state (lognot side.flag) else lock.state }

def addWake (lock : Rwlock) (side : Side) : Rwlock :=
  lock.setPending side { lock.pending side with wakeWord := (lock.pending side).wakeWord + 1 }

end Rwlock

/-- A step of the thread `me`; a thread that is asleep or at rest, or that is about to wake others,
stays. -/
def threadStep (me : ℕ) (lock : Rwlock) (th : Thread) : Rwlock × Thread :=
  match th.pc with
  | .tryLock side slow => (lock, th.goto (attempt side slow lock.state))
  | .casLock side slow old =>
    if lock.state = old then ({ lock with state := acquired side old }, th.acquire side)
    else (lock, th.goto (attempt side slow lock.state))
  | .setTid => ({ lock with writerTid := me }, th.goto (.rest none))
  | .checkTid side =>
    (lock, th.goto (if lock.writerTid = me then .rest (some (tidError side))
      else .tryLock side true))
  | .readState side =>
    (lock, th.goto (if canAcquire side lock.state then .tryLock side true else .register side))
  | .register side =>
    (lock.register side,
      th.goto (if canAcquire side lock.state then .deregister side else .wait side
        (lock.pending side).wakeWord))
  | .wait side serial =>
    (lock, th.goto (if word (lock.pending side).wakeWord = word serial then .asleep side serial
      else .deregister side))
  | .deregister side => (lock.deregister side, th.goto (.tryLock side true))
  | .unlock =>
    (lock, th.goto (if rwlOwnedByWriterP lock.state then .averTid
      else if rwlLockedP lock.state then .readRelease .reader else .rest
      (some "unlock without lock")))
  | .averTid =>
    (lock, th.goto (if lock.writerTid = me then .clearTid
      else .rest (some "The assertion (= (RWLOCK-WRITER-TID LOCK) (MY-KERNEL-THREAD-ID)) failed")))
  | .clearTid => ({ lock with writerTid := 0 }, th.goto (.readRelease .writer))
  | .readRelease side => (lock, th.goto (.casRelease side lock.state))
  | .casRelease side old =>
    if lock.state = old then ({ lock with state := released side old },
      th.release (afterRelease side old) side)
    else (lock, th.goto (.casRelease side lock.state))
  | .wakeSection =>
    if 0 < (lock.pending .writer).count then (lock.addWake .writer, th.goto (.wake .writer))
    else if 0 < (lock.pending .reader).count then (lock.addWake .reader, th.goto (.wake .reader))
    else (lock, th.goto (.rest none))
  | .rest _ | .asleep _ _ | .wake _ => (lock, th)

/-! ## Steps -/

/-- The kernel's thread ids. -/
structure ThreadIds (T : Type) where
  tid : T → ℕ
  injective : Injective tid
  pos : ∀ t, 0 < tid t
  lt : ∀ t, tid t < 2 ^ 32

variable {T : Type}

structure World (T : Type) where
  lock : Rwlock
  thread : T → Thread

def Pc.AtRest (pc : Pc) : Prop := ∃ error, pc = .rest error

def Pc.Asleep (pc : Pc) : Prop := ∃ side serial, pc = .asleep side serial

/-- The step is one of `threadStep`. -/
def Pc.Running : Pc → Prop
  | .rest _ | .asleep _ _ | .wake _ => False
  | _ => True

namespace World

variable [DecidableEq T]

def set (w : World T) (t : T) (th : Thread) : World T := { w with thread := update w.thread t th }

def goto (w : World T) (t : T) (pc : Pc) : World T := w.set t ((w.thread t).goto pc)

variable (w : World T) {t u : T} (th : Thread)

@[simp] theorem set_lock : (w.set t th).lock = w.lock := rfl

@[simp] theorem set_thread_self : (w.set t th).thread t = th := by simp [set]

theorem set_thread_of_ne (h : u ≠ t) : (w.set t th).thread u = w.thread u := by simp [set, h]

end World

/-- A thread that a wake of all readers has woken, if it was asleep. -/
def wakeReader (th : Thread) : Thread :=
  match th.pc with
  | .asleep .reader _ => th.goto (.deregister .reader)
  | _ => th

variable [DecidableEq T] (ids : ThreadIds T)

/-- A step of the thread `t`. Threads at rest may call `rwlock-rdlock` and `rwlock-wrlock`, and
`rwlock-unlock` when they hold the lock. A wake of one writer takes any that is asleep. -/
inductive Step : World T → T → World T → Prop
  | lock (w : World T) (t : T) (side : Side) : (w.thread t).pc.AtRest →
  Step w t (w.goto t (.tryLock side false))
  | unlock (w : World T) (t : T) : (w.thread t).pc.AtRest → 0 < (w.thread t).reading ∨
    (w.thread t).writing = true →
      Step w t (w.goto t .unlock)
  | run (w : World T) (t : T) : (w.thread t).pc.Running →
      Step w t ({ w with lock := (threadStep (ids.tid t) w.lock (w.thread t)).1 }.set t
        (threadStep (ids.tid t) w.lock (w.thread t)).2)
  | wakeOne (w : World T) (t u : T) (serial : ℕ) : (w.thread t).pc = .wake .writer →
      (w.thread u).pc = .asleep .writer serial →
        Step w t ((w.goto t (.rest none)).goto u (.deregister .writer))
  | wakeNone (w : World T) (t : T) : (w.thread t).pc = .wake .writer →
      (∀ u serial, (w.thread u).pc ≠ .asleep .writer serial) → Step w t (w.goto t (.rest none))
  | wakeAll (w : World T) (t : T) : (w.thread t).pc = .wake .reader →
      Step w t ({ w with thread := fun u => wakeReader (w.thread u) }.goto t (.rest none))

/-- A new lock, and threads that hold nothing. -/
def World.initial : World T := ⟨Rwlock.make, fun _ => ⟨.rest none, 0, false⟩⟩

/-- The states of the runs in which `ok` holds of every state. -/
inductive ReachableIn (ok : World T → Prop) : World T → Prop
  | initial : ok World.initial → ReachableIn ok World.initial
  | step {w w' : World T} {t : T} : ReachableIn ok w → Step ids w t w' → ok w' → ReachableIn ok w'

def Reachable : World T → Prop := ReachableIn ids fun _ => True

end Sbcl.Concurrency
