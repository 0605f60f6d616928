import Mathlib.Data.Nat.Bitwise

/-!
# Fast read locks (contrib/sb-concurrency/frlock.lisp)

* `Lock` : the two counters and the epoch, with the variables that the lock protects;
* `threadStep` : the loads and stores of `frlock-read`, `%%grab-frlock-write-lock` and
  `release-frlock-write-lock`;
* `Step`, `Run` : any number of readers and writers, where the mutex of the writers has one holder.

The counters turn over after `mostPositiveFixnum`, which is a parameter. An epoch is a fresh list,
so it is the number of the lists that were made before. How many stores there have been of each
counter is kept beside them for the proofs; the code has no such counts.
-/

namespace Sbcl.Concurrency.Frlock

open Function

variable {Var Val T : Type}

structure Lock (Var Val : Type) where
  mem : Var → Val
  preCounter : ℕ
  postCounter : ℕ
  epoch : ℕ
  begun : ℕ
  finished : ℕ

/-- What `frlock-read-begin` has returned to a reader of the forms, and how many writes were
finished when it fetched the token. -/
structure ReadBegin (Var : Type) where
  forms : List Var
  token : ℕ
  epoch : ℕ
  finished : ℕ

/-- The next step of a thread. -/
inductive Pc (Var Val : Type) where
  /-- The values, if the last call was a read. -/
  | rest (values : Option (List (Var × Val)))
  | readToken (forms : List Var)
  | readEpoch (forms : List Var) (token finished : ℕ)
  /-- The forms left to evaluate; the token at the end is next when there are none. -/
  | readForms (start : ReadBegin Var) (values : List (Var × Val)) (left : List Var)
  | readEndEpoch (start : ReadBegin Var) (values : List (Var × Val)) (token begun : ℕ)
  | grab
  | readPreCounter
  | setEpoch (new : ℕ)
  | setPreCounter (new : ℕ)
  | body
  | readPostCounter
  | setPostCounter (new : ℕ)
  | release

/-- `(logand most-positive-fixnum (1+ counter))`, for any modulus. -/
def increase (mostPositiveFixnum counter : ℕ) : ℕ := (counter + 1) % (mostPositiveFixnum + 1)

variable (mostPositiveFixnum : ℕ)

/-- A step of a thread. A thread at rest, in its body or at the mutex stays. -/
def threadStep (lock : Lock Var Val) : Pc Var Val → Lock Var Val × Pc Var Val
  | .readToken forms => (lock, .readEpoch forms lock.postCounter lock.finished)
  | .readEpoch forms token finished =>
    (lock, .readForms ⟨forms, token, lock.epoch, finished⟩ [] forms)
  | .readForms start values (x :: left) =>
    (lock, .readForms start (values ++ [(x, lock.mem x)]) left)
  | .readForms start values [] => (lock, .readEndEpoch start values lock.preCounter lock.begun)
  | .readEndEpoch start values token _ =>
    (lock, if token = start.token ∧ lock.epoch = start.epoch then .rest (some values)
      else .readToken start.forms)
  | .readPreCounter =>
    let new := increase mostPositiveFixnum lock.preCounter
    (lock, if new = 0 then .setEpoch new else .setPreCounter new)
  | .setEpoch new => ({ lock with epoch := lock.epoch + 1 }, .setPreCounter new)
  | .setPreCounter new => ({ lock with preCounter := new, begun := lock.begun + 1 }, .body)
  | .readPostCounter => (lock, .setPostCounter (increase mostPositiveFixnum lock.postCounter))
  | .setPostCounter new => ({ lock with postCounter := new, finished := lock.finished + 1 },
    .release)
  | .rest values => (lock, .rest values)
  | .grab => (lock, .grab)
  | .body => (lock, .body)
  | .release => (lock, .release)

/-! ## Runs -/

structure World (T Var Val : Type) where
  lock : Lock Var Val
  /-- The holder of the mutex. -/
  holder : Option T
  thread : T → Pc Var Val

/-- The step is one of `threadStep`. -/
def Pc.Running : Pc Var Val → Prop
  | .rest _ | .grab | .body | .release => False
  | _ => True

/-- The thread holds the mutex. -/
def Pc.Inside : Pc Var Val → Prop
  | .readPreCounter | .setEpoch _ | .setPreCounter _ | .body | .readPostCounter | .setPostCounter _ | .release => True
  | _ => False

variable [DecidableEq T] [DecidableEq Var]

def World.goto (w : World T Var Val) (t : T) (pc : Pc Var Val) : World T Var Val :=
  { w with thread := update w.thread t pc }

def Lock.assign (lock : Lock Var Val) (x : Var) (v : Val) : Lock Var Val :=
  { lock with mem := update lock.mem x v }

/-- A step of the thread `t`. A writer may fail to get the mutex, and its body assigns what it likes
and stops when it likes. -/
inductive Step : World T Var Val → T → World T Var Val → Prop
  | read (w : World T Var Val) (t : T) (values : Option (List (Var × Val))) (forms : List Var) :
      w.thread t = .rest values → Step w t (w.goto t (.readToken forms))
  | write (w : World T Var Val) (t : T) (values : Option (List (Var × Val))) :
      w.thread t = .rest values → Step w t (w.goto t .grab)
  | grab (w : World T Var Val) (t : T) :
      w.thread t = .grab → w.holder = none →
        Step w t ({ w with holder := some t }.goto t .readPreCounter)
  | giveUp (w : World T Var Val) (t : T) : w.thread t = .grab → Step w t (w.goto t (.rest none))
  | assign (w : World T Var Val) (t : T) (x : Var) (v : Val) :
      w.thread t = .body → Step w t { w with lock := w.lock.assign x v }
  | leave (w : World T Var Val) (t : T) : w.thread t = .body → Step w t (w.goto t .readPostCounter)
  | release (w : World T Var Val) (t : T) :
      w.thread t = .release → Step w t ({ w with holder := none }.goto t (.rest none))
  | run (w : World T Var Val) (t : T) : (w.thread t).Running →
      Step w t ({ w with lock := (threadStep mostPositiveFixnum w.lock (w.thread t)).1 }.goto t
        (threadStep mostPositiveFixnum w.lock (w.thread t)).2)

/-- A new lock, and threads that have called nothing. -/
def World.initial (mem : Var → Val) : World T Var Val :=
  ⟨⟨mem, 0, 0, 0, 0, 0⟩, none, fun _ => .rest none⟩

/-- The runs whose steps are taken as `ok` allows, with the states before the last one. -/
inductive Run (ok : World T Var Val → T → Prop) : List (World T Var Val) → World T Var Val → Prop
  | initial (mem : Var → Val) : Run ok [] (World.initial mem)
  | step {past : List (World T Var Val)} {w w' : World T Var Val} {t : T} :
      Run ok past w → ok w t → Step mostPositiveFixnum w t w' → Run ok (w :: past) w'

/-- No body is being executed. -/
def World.BetweenWrites (w : World T Var Val) : Prop := ∀ t, w.thread t ≠ .body

/-- The values belong to one of the states, in which no body was being executed. -/
def Consistent (states : List (World T Var Val)) (values : List (Var × Val)) : Prop :=
  ∃ v ∈ states, v.BetweenWrites ∧ ∀ p ∈ values, v.lock.mem p.1 = p.2

/-- A reader that fetches the epoch gets that of its token: it has been replaced as often as the
counter had turned over in the writes that were finished when the token was fetched. -/
def FetchesEpochOfToken (w : World T Var Val) (t : T) : Prop :=
  ∀ forms token finished, w.thread t = .readEpoch forms token finished →
    w.lock.epoch = finished / (mostPositiveFixnum + 1)

end Sbcl.Concurrency.Frlock
