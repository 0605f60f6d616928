import Sbcl.Concurrency.Frlock

/-!
# What readers of a fast read lock see

* `Invariant` : the counters and the epoch are those of the writes begun and finished;
  `Invariant.step` : every step keeps it;
* `Lock.Later` : what the steps of the writers do to a lock that a reader is reading;
* `Reads` : what a reader knows between its steps; `Reads.step` : kept where the readers fetch the
  epoch of their token;
* `frlock_run` : every run;
* `exists_torn` : a run for any modulus in which a reader fetches a later epoch, and returns half of
  a write.
-/

namespace Sbcl.Concurrency.Frlock

open Function Nat

variable {Var Val T : Type} {m : ℕ} {lock lock' : Lock Var Val} {pc : Pc Var Val}

/-! ## Writers -/

/-- The counters are those of the writes begun and finished. -/
structure Lock.Counts (m : ℕ) (lock : Lock Var Val) : Prop where
  pre : lock.preCounter = lock.begun % (m + 1)
  post : lock.postCounter = lock.finished % (m + 1)

/-- No write has been begun that is not finished, and the epoch is that of the counter. -/
structure Lock.Still (m : ℕ) (lock : Lock Var Val) : Prop where
  begun : lock.begun = lock.finished
  epoch : lock.epoch = lock.begun / (m + 1)

/-- One write has been begun that is not finished. -/
structure Lock.Written (m : ℕ) (lock : Lock Var Val) : Prop where
  begun : lock.begun = lock.finished + 1
  epoch : lock.epoch = lock.begun / (m + 1)

/-- How the lock is while its holder is at that step. -/
def Lock.HeldAt (m : ℕ) (lock : Lock Var Val) : Pc Var Val → Prop
  | .setEpoch new => lock.Still m ∧ new = (lock.begun + 1) % (m + 1) ∧ new = 0
  | .setPreCounter new =>
    lock.begun = lock.finished ∧ lock.epoch = (lock.begun + 1) / (m + 1) ∧
      new = (lock.begun + 1) % (m + 1)
  | .body | .readPostCounter => lock.Written m
  | .setPostCounter new => lock.Written m ∧ new = (lock.finished + 1) % (m + 1)
  | _ => lock.Still m

theorem increase_mod (m n : ℕ) : increase m (n % (m + 1)) = (n + 1) % (m + 1) :=
  mod_add_mod n (m + 1) 1

theorem threadStep_outside (h : ¬ pc.Inside) :
    (threadStep m lock pc).1 = lock ∧ ¬ (threadStep m lock pc).2.Inside := by
  cases pc with
  | readForms start values left => cases left <;> exact ⟨rfl, id⟩
  | readEndEpoch start values token begun =>
    refine ⟨rfl, ?_⟩
    dsimp only [threadStep]
    split <;> exact id
  | rest | readToken | readEpoch | grab => exact ⟨rfl, id⟩
  | readPreCounter | setEpoch | setPreCounter | body | readPostCounter | setPostCounter | release =>
    exact absurd trivial h

theorem threadStep_inside (h : pc.Inside) (hrun : pc.Running) (hcounts : lock.Counts m)
    (hheld : lock.HeldAt m pc) :
    (threadStep m lock pc).2.Inside ∧ (threadStep m lock pc).1.Counts m ∧
      (threadStep m lock pc).1.HeldAt m (threadStep m lock pc).2 := by
  cases pc with
  | readPreCounter =>
    have hnew : increase m lock.preCounter = (lock.begun + 1) % (m + 1) := by
      rw [hcounts.pre, increase_mod]
    have hstill : lock.Still m := hheld
    dsimp only [threadStep]
    split
    · rename_i hzero
      exact ⟨trivial, hcounts, hstill, hnew, hzero⟩
    · rename_i hzero
      rw [hnew] at hzero
      exact ⟨trivial, hcounts,
        hstill.begun, by rw [succ_div_of_mod_ne_zero hzero]; exact hstill.epoch, hnew⟩
  | setEpoch new =>
    obtain ⟨hstill, hnew, hzero⟩ := hheld
    refine ⟨trivial, ⟨hcounts.pre, hcounts.post⟩, hstill.begun, ?_, hnew⟩
    rw [hnew] at hzero
    change lock.epoch + 1 = (lock.begun + 1) / (m + 1)
    rw [succ_div_of_mod_eq_zero hzero, hstill.epoch]
  | setPreCounter new =>
    obtain ⟨hbegun, hepoch, hnew⟩ := hheld
    exact ⟨trivial, ⟨hnew, hcounts.post⟩, congrArg (· + 1) hbegun, hepoch⟩
  | readPostCounter =>
    refine ⟨trivial, hcounts, hheld, ?_⟩
    change increase m lock.postCounter = (lock.finished + 1) % (m + 1)
    rw [hcounts.post, increase_mod]
  | setPostCounter new =>
    obtain ⟨hwritten, hnew⟩ := hheld
    exact ⟨trivial, ⟨hcounts.pre, hnew⟩, hwritten.begun, hwritten.epoch⟩
  | body | release => exact hrun.elim
  | rest | readToken | readEpoch | readForms | readEndEpoch | grab => exact h.elim

variable {w w' : World T Var Val} {t u : T}

structure Invariant (m : ℕ) (w : World T Var Val) : Prop where
  inside : ∀ t, (w.thread t).Inside ↔ w.holder = some t
  counts : w.lock.Counts m
  still : w.holder = none → w.lock.Still m
  held : ∀ t, w.holder = some t → w.lock.HeldAt m (w.thread t)

namespace Invariant

theorem written (hw : Invariant m w) (h : w.thread t = .body) : w.lock.Written m := by
  have hin : (w.thread t).Inside := by rw [h]; trivial
  have hheld := hw.held t ((hw.inside t).1 hin)
  rwa [h] at hheld

theorem bounds (hw : Invariant m w) :
    w.lock.finished ≤ w.lock.begun ∧ w.lock.begun / (m + 1) ≤ w.lock.epoch := by
  cases hh : w.holder with
  | none =>
    have hstill := hw.still hh
    exact ⟨hstill.begun.ge, hstill.epoch.ge⟩
  | some t =>
    have hheld := hw.held t hh
    have hin := (hw.inside t).2 hh
    cases hpc : w.thread t with
    | setEpoch new =>
      rw [hpc] at hheld
      exact ⟨hheld.1.begun.ge, hheld.1.epoch.ge⟩
    | setPreCounter new =>
      rw [hpc] at hheld
      obtain ⟨hbegun, hepoch, -⟩ := hheld
      exact ⟨hbegun.ge, hepoch.symm ▸ Nat.div_le_div_right (le_succ _)⟩
    | body | readPostCounter =>
      rw [hpc] at hheld
      exact ⟨hheld.begun.symm ▸ le_succ _, hheld.epoch.ge⟩
    | setPostCounter new =>
      rw [hpc] at hheld
      exact ⟨hheld.1.begun.symm ▸ le_succ _, hheld.1.epoch.ge⟩
    | readPreCounter | release =>
      rw [hpc] at hheld
      exact ⟨hheld.begun.ge, hheld.epoch.ge⟩
    | rest | readToken | readEpoch | readForms | readEndEpoch | grab =>
      rw [hpc] at hin
      exact hin.elim

end Invariant

theorem initial_invariant (mem : Var → Val) :
    Invariant m (World.initial mem : World T Var Val) where
  inside _ := ⟨fun h => h.elim, fun h => nomatch h⟩
  counts := ⟨(zero_mod _).symm, (zero_mod _).symm⟩
  still _ := ⟨rfl, (Nat.zero_div _).symm⟩
  held _ h := nomatch h

/-! ## Readers -/

/-- What a reader finds when others have taken steps since it read the lock. -/
structure Lock.Later (lock lock' : Lock Var Val) : Prop where
  begun : lock.begun ≤ lock'.begun
  finished : lock.finished ≤ lock'.finished
  epoch : lock.epoch ≤ lock'.epoch
  mem : lock'.begun = lock.finished → lock'.mem = lock.mem

theorem Lock.Later.refl (lock : Lock Var Val) : lock.Later lock :=
  ⟨le_rfl, le_rfl, le_rfl, fun _ => rfl⟩

theorem threadStep_later (m : ℕ) (lock : Lock Var Val) (pc : Pc Var Val) :
    lock.Later (threadStep m lock pc).1 := by
  cases pc with
  | readForms start values left => cases left <;> exact .refl lock
  | setEpoch new => exact ⟨le_rfl, le_rfl, le_succ _, fun _ => rfl⟩
  | setPreCounter new => exact ⟨le_succ _, le_rfl, le_rfl, fun _ => rfl⟩
  | setPostCounter new => exact ⟨le_rfl, le_succ _, le_rfl, fun _ => rfl⟩
  | rest | readToken | readEpoch | readEndEpoch | grab | readPreCounter | body | readPostCounter | release => exact .refl lock

/-- The epoch and the token are those of one count, which has been reached. -/
structure ReadBegin.Of (m : ℕ) (start : ReadBegin Var) : Prop where
  token : start.token = start.finished % (m + 1)
  epoch : start.epoch = start.finished / (m + 1)

variable {past : List (World T Var Val)}

/-- What a reader knows of the lock and of the states so far. -/
def Reads (m : ℕ) (states : List (World T Var Val)) (lock : Lock Var Val) : Pc Var Val → Prop
  | .rest (some values) => Consistent states values
  | .readEpoch _ token finished => token = finished % (m + 1) ∧ finished ≤ lock.finished
  | .readForms start values _ =>
    start.Of m ∧ start.finished ≤ lock.finished ∧
      (lock.begun = start.finished → ∀ p ∈ values, lock.mem p.1 = p.2)
  | .readEndEpoch start values token begun =>
    start.Of m ∧ token = begun % (m + 1) ∧ start.finished ≤ begun ∧ begun / (m + 1) ≤ lock.epoch ∧
      (begun = start.finished → Consistent states values)
  | _ => True

theorem Consistent.mono {states : List (World T Var Val)} {values : List (Var × Val)}
    (h : Consistent states values) : Consistent (w :: states) values := by
  obtain ⟨v, hv, hbetween, hvalues⟩ := h
  exact ⟨v, .tail w hv, hbetween, hvalues⟩

theorem Reads.later {states : List (World T Var Val)} (h : Reads m states lock pc)
    (hle : lock.finished ≤ lock.begun)
    (hlater : lock.Later lock') : Reads m (w :: states) lock' pc := by
  cases pc with
  | rest values =>
    cases values with
    | none => trivial
    | some values => exact Consistent.mono h
  | readEpoch forms token finished => exact ⟨h.1, h.2.trans hlater.finished⟩
  | readForms start values left =>
    obtain ⟨hof, hfinished, hvalues⟩ := h
    refine ⟨hof, hfinished.trans hlater.finished, fun hbegun => ?_⟩
    -- Nothing was begun in between.
    have hsame : start.finished = lock.finished := by
      have := hlater.begun
      omega
    rw [hlater.mem (hbegun.trans hsame)]
    refine hvalues ?_
    have := hlater.begun
    omega
  | readEndEpoch start values token begun =>
    obtain ⟨hof, htoken, hfinished, hepoch, hvalues⟩ := h
    exact ⟨hof, htoken, hfinished, hepoch.trans hlater.epoch, fun heq => (hvalues heq).mono⟩
  | readToken | grab | readPreCounter | setEpoch | setPreCounter | body | readPostCounter | setPostCounter | release =>
    trivial

theorem eq_of_mod_eq_of_div_le {a b d : ℕ} (hab : a ≤ b) (hmod : b % d = a % d)
    (hdiv : b / d ≤ a / d) : b = a := by
  have hdiv' : b / d = a / d := le_antisymm hdiv (Nat.div_le_div_right hab)
  rw [← div_add_mod b d, hdiv', hmod, div_add_mod]

theorem Reads.threadStep (hw : Invariant m w) (hok : FetchesEpochOfToken m w t)
    (h : Reads m (w :: past) w.lock (w.thread t)) (hrun : (w.thread t).Running) :
    Reads m (w' :: w :: past)
      (threadStep m w.lock (w.thread t)).1 (threadStep m w.lock (w.thread t)).2 := by
  obtain ⟨hle, hepoch⟩ := hw.bounds
  cases hpc : w.thread t with
  | readToken forms => exact ⟨hw.counts.post, le_rfl⟩
  | readEpoch forms token finished =>
    rw [hpc] at h
    exact ⟨⟨h.1, hok forms token finished hpc⟩, h.2, fun _ p hp => nomatch hp⟩
  | readForms start values left =>
    rw [hpc] at h
    obtain ⟨hof, hfinished, hvalues⟩ := h
    cases left with
    | nil =>
      refine ⟨hof, hw.counts.pre, hfinished.trans hle, hepoch, fun hbegun => ?_⟩
      refine ⟨w, .tail _ (.head _), fun u hbody => ?_, hvalues hbegun⟩
      have hwritten := (hw.written hbody).begun
      omega
    | cons x left =>
      refine ⟨hof, hfinished, fun hbegun p hp => ?_⟩
      rcases List.mem_append.1 hp with hp | hp
      · exact hvalues hbegun p hp
      · rw [List.mem_singleton.1 hp]
        rfl
  | readEndEpoch start values token begun =>
    rw [hpc] at h
    obtain ⟨hof, htoken, hfinished, hnow, hvalues⟩ := h
    dsimp only [Frlock.threadStep]
    split
    · rename_i hsame
      obtain ⟨htoken', hepoch'⟩ := hsame
      have heq : begun = start.finished := by
        refine @eq_of_mod_eq_of_div_le start.finished begun (m + 1) hfinished ?_ ?_
        · rw [← htoken, htoken', hof.token]
        · rw [← hof.epoch, ← hepoch']
          exact hnow
      exact (hvalues heq).mono
    · trivial
  | readPreCounter =>
    dsimp only [Frlock.threadStep]
    split <;> trivial
  | setEpoch | setPreCounter | readPostCounter | setPostCounter => trivial
  | rest | grab | body | release =>
    rw [hpc] at hrun
    exact hrun.elim

/-! ## Steps -/

variable [DecidableEq T]

theorem goto_self (pc : Pc Var Val) : (w.goto t pc).thread t = pc := by simp [World.goto]

theorem goto_of_ne (pc : Pc Var Val) (h : u ≠ t) : (w.goto t pc).thread u = w.thread u := by
  simp [World.goto, h]

namespace Invariant

theorem goto (hw : Invariant m w) {pc : Pc Var Val} (hin : pc.Inside ↔ (w.thread t).Inside)
    (hheld : pc.Inside → w.lock.HeldAt m pc) : Invariant m (w.goto t pc) where
  inside u := by
    by_cases hu : u = t
    · subst hu
      rw [goto_self, hin]
      exact hw.inside u
    · rw [goto_of_ne _ hu]
      exact hw.inside u
  counts := hw.counts
  still := hw.still
  held u h := by
    by_cases hu : u = t
    · subst hu
      rw [goto_self]
      exact hheld (hin.2 ((hw.inside u).2 h))
    · rw [goto_of_ne _ hu]
      exact hw.held u h

theorem holder_goto (hw : Invariant m w) (ht : w.holder = some t) {pc : Pc Var Val}
    (hin : pc.Inside)
    (hcounts : lock.Counts m) (hheld : lock.HeldAt m pc) :
    Invariant m ({ w with lock := lock }.goto t pc) where
  inside u := by
    by_cases hu : u = t
    · subst hu
      rw [goto_self]
      exact ⟨fun _ => ht, fun _ => hin⟩
    · rw [goto_of_ne _ hu]
      exact hw.inside u
  counts := hcounts
  still h := nomatch ht.symm.trans h
  held u h := by
    obtain rfl : t = u := Option.some.inj (ht.symm.trans h)
    rw [goto_self]
    exact hheld

theorem step [DecidableEq Var] (hw : Invariant m w) (h : Step m w t w') : Invariant m w' := by
  cases h with
  | read values forms hpc =>
    refine hw.goto ?_ fun hin => hin.elim
    rw [hpc]
    exact Iff.rfl
  | write values hpc =>
    refine hw.goto ?_ fun hin => hin.elim
    rw [hpc]
    exact Iff.rfl
  | giveUp hpc =>
    refine hw.goto ?_ fun hin => hin.elim
    rw [hpc]
    exact Iff.rfl
  | grab hpc hfree =>
    refine ⟨fun u => ?_, hw.counts, (fun hh => nomatch hh), fun u hh => ?_⟩
    · by_cases hu : u = t
      · subst hu
        rw [goto_self]
        exact ⟨fun _ => rfl, fun _ => trivial⟩
      · rw [goto_of_ne _ hu]
        refine ⟨fun hin => ?_, fun heq => absurd (Option.some.inj heq).symm hu⟩
        exact nomatch hfree.symm.trans ((hw.inside u).1 hin)
    · obtain rfl : t = u := Option.some.inj hh
      rw [goto_self]
      exact hw.still hfree
  | assign x v hpc =>
    have hin : (w.thread t).Inside := by rw [hpc]; trivial
    have ht := (hw.inside t).1 hin
    have hwritten := hw.written hpc
    refine ⟨hw.inside, ⟨hw.counts.pre, hw.counts.post⟩,
      (fun hh => nomatch ht.symm.trans hh), fun u hh => ?_⟩
    obtain rfl : t = u := Option.some.inj (ht.symm.trans hh)
    rw [hpc]
    exact ⟨hwritten.begun, hwritten.epoch⟩
  | leave hpc =>
    refine hw.goto ?_ fun _ => hw.written hpc
    rw [hpc]
    exact Iff.rfl
  | release hpc =>
    have hin : (w.thread t).Inside := by rw [hpc]; trivial
    have ht := (hw.inside t).1 hin
    have hheld := hw.held t ht
    rw [hpc] at hheld
    refine ⟨fun u => ?_, hw.counts, fun _ => hheld, fun u hh => nomatch hh⟩
    by_cases hu : u = t
    · subst hu
      rw [goto_self]
      exact ⟨fun h => h.elim, fun h => nomatch h⟩
    · rw [goto_of_ne _ hu]
      refine ⟨fun hin' => ?_, fun h => nomatch h⟩
      exact absurd (Option.some.inj (((hw.inside u).1 hin').symm.trans ht)) hu
  | run hrun =>
    by_cases hin : (w.thread t).Inside
    · have ht := (hw.inside t).1 hin
      obtain ⟨hin', hcounts, hheld⟩ := threadStep_inside hin hrun hw.counts (hw.held t ht)
      exact hw.holder_goto ht hin' hcounts hheld
    · obtain ⟨hlock, hin'⟩ := @threadStep_outside _ _ m w.lock _ hin
      rw [hlock]
      exact hw.goto (iff_of_false hin' hin) fun h => absurd h hin'

end Invariant

variable [DecidableEq Var]

theorem Step.later (hw : Invariant m w) (h : Step m w t w') : w.lock.Later w'.lock := by
  cases h with
  | assign x v hpc =>
    have hwritten := (hw.written hpc).begun
    refine ⟨le_rfl, le_rfl, le_rfl, fun heq => ?_⟩
    have hbegun : w.lock.begun = w.lock.finished := heq
    omega
  | run hrun => exact threadStep_later m w.lock (w.thread t)
  | read | write | grab | giveUp | leave | release => exact .refl w.lock

theorem Step.thread_of_ne (h : Step m w t w') (hu : u ≠ t) : w'.thread u = w.thread u := by
  cases h with
  | assign => rfl
  | read | write | grab | giveUp | leave | release | run => exact goto_of_ne _ hu

theorem Reads.step (hw : Invariant m w) (hok : FetchesEpochOfToken m w t) (h : Step m w t w')
    (hreads : ∀ u, Reads m (w :: past) w.lock (w.thread u)) (u : T) :
    Reads m (w' :: w :: past) w'.lock (w'.thread u) := by
  by_cases hu : u = t
  · subst hu
    cases h with
    | run hrun =>
      rw [goto_self]
      exact Reads.threadStep hw hok (hreads u) hrun
    | assign x v hpc =>
      rw [hpc]
      trivial
    | read | write | grab | giveUp | leave | release =>
      rw [goto_self]
      trivial
  · rw [h.thread_of_ne hu]
    exact (hreads u).later hw.bounds.1 (h.later hw)

variable {ok : World T Var Val → T → Prop}

theorem Run.invariant (h : Run m ok past w) : Invariant m w := by
  induction h with
  | initial mem => exact initial_invariant mem
  | step _ _ hstep ih => exact ih.step hstep

theorem Run.reads (hok : ∀ v t, ok v t → FetchesEpochOfToken m v t) (h : Run m ok past w) (t : T) :
    Reads m (w :: past) w.lock (w.thread t) := by
  induction h generalizing t with
  | initial mem => trivial
  | step hrun hallowed hstep ih => exact Reads.step hrun.invariant (hok _ _ hallowed) hstep ih t

/-- The counters are equal whenever no writer holds the lock, and the values that a reader returns
belong to one state between two writes, in every run whose readers fetch the epoch of their token.
-/
theorem frlock_run (h : Run m ok past w) :
    (w.holder = none → w.lock.preCounter = w.lock.postCounter) ∧
      ((∀ v t, ok v t → FetchesEpochOfToken m v t) →
        ∀ t values, w.thread t = .rest (some values) → Consistent (w :: past) values) := by
  refine ⟨fun hfree => ?_, fun hok t values hrest => ?_⟩
  · have hw := h.invariant
    rw [hw.counts.pre, hw.counts.post, (hw.still hfree).begun]
  · have hreads := h.reads hok t
    rw [hrest] at hreads
    exact hreads

section Duo

/-- A reader and a writer, of two variables. -/
def duo (lock : Lock Bool ℕ) (holder : Option Bool) (reader writer : Pc Bool ℕ) :
    World Bool Bool ℕ :=
  ⟨lock, holder, fun t => bif t then writer else reader⟩

variable {lock lock' : Lock Bool ℕ} {holder : Option Bool} {reader writer pc : Pc Bool ℕ}

theorem duo_goto_reader : (duo lock holder reader writer).goto false pc =
    duo lock holder pc writer := by
  unfold duo World.goto
  congr 1
  funext t
  cases t <;> rfl

theorem duo_goto_writer : (duo lock holder reader writer).goto true pc =
    duo lock holder reader pc := by
  unfold duo World.goto
  congr 1
  funext t
  cases t <;> rfl

theorem step_reader (hrun : reader.Running) (heq : threadStep m lock reader = (lock', pc)) :
    Step m (duo lock holder reader writer) false (duo lock' holder pc writer) := by
  have hstep :
    Step m (duo lock holder reader writer) false
    ((duo (threadStep m lock reader).1 holder reader writer).goto false
    (threadStep m lock reader).2) := .run _ false hrun
  rwa [heq, duo_goto_reader] at hstep

theorem step_writer (hrun : writer.Running) (heq : threadStep m lock writer = (lock', pc)) :
    Step m (duo lock holder reader writer) true (duo lock' holder reader pc) := by
  have hstep :
    Step m (duo lock holder reader writer) true
    ((duo (threadStep m lock writer).1 holder reader writer).goto true
    (threadStep m lock writer).2) := .run _ true hrun
  rwa [heq, duo_goto_writer] at hstep

theorem step_read (forms : List Bool) :
    Step m (duo lock holder (.rest none) writer) false
      (duo lock holder (.readToken forms) writer) := by
  have hstep : Step m (duo lock holder (.rest none) writer) false
    ((duo lock holder (.rest none) writer).goto false (.readToken forms)) :=
    .read _ false none forms rfl
  rwa [duo_goto_reader] at hstep

theorem step_write :
    Step m (duo lock holder reader (.rest none)) true (duo lock holder reader .grab) := by
  have hstep :
      Step m (duo lock holder reader (.rest none)) true
        ((duo lock holder reader (.rest none)).goto true .grab) :=
    .write _ true none rfl
  rwa [duo_goto_writer] at hstep

theorem step_grab :
    Step m (duo lock none reader .grab) true (duo lock (some true) reader .readPreCounter) := by
  have hstep :
      Step m (duo lock none reader .grab) true
        ((duo lock (some true) reader .grab).goto true .readPreCounter) :=
    .grab _ true rfl rfl
  rwa [duo_goto_writer] at hstep

theorem step_assign (x : Bool) (v : ℕ) :
    Step m (duo lock holder reader .body) true (duo (lock.assign x v) holder reader .body) :=
  .assign (duo lock holder reader .body) true x v rfl

theorem step_leave :
    Step m (duo lock holder reader .body) true (duo lock holder reader .readPostCounter) := by
  have hstep :
      Step m (duo lock holder reader .body) true
        ((duo lock holder reader .body).goto true .readPostCounter) :=
    .leave _ true rfl
  rwa [duo_goto_writer] at hstep

theorem step_release :
    Step m (duo lock holder reader .release) true (duo lock none reader (.rest none)) := by
  have hstep :
      Step m (duo lock holder reader .release) true
        ((duo lock none reader .release).goto true (.rest none)) :=
    .release _ true rfl
  rwa [duo_goto_writer] at hstep

theorem duo_initial (m : ℕ) (ok : World Bool Bool ℕ → Bool → Prop) :
    Run m ok [] (duo ⟨fun _ => 0, 0, 0, 0, 0, 0⟩ none (.rest none) (.rest none)) := by
  have hinitial :
      World.initial (fun _ => 0) = duo ⟨fun _ => 0, 0, 0, 0, 0, 0⟩ none (.rest none) (.rest none) :=
    congrArg (World.mk _ none) (funext fun t => by cases t <;> rfl)
  exact hinitial ▸ .initial _

/-- The runs of counters of one bit whose reader fetches the epoch of its token. -/
def Reached (w : World Bool Bool ℕ) : Prop := ∃ past, Run 1 (FetchesEpochOfToken 1) past w

theorem Reached.step {w w' : World Bool Bool ℕ} {t : Bool} (h : Reached w)
    (hok : FetchesEpochOfToken 1 w t) (hstep : Step 1 w t w') : Reached w' := by
  obtain ⟨past, hrun⟩ := h
  exact ⟨w :: past, .step hrun hok hstep⟩

theorem Reached.fetch {forms : List Bool} {token finished : ℕ}
    (h : Reached (duo lock holder (.readEpoch forms token finished) writer))
    (hepoch : lock.epoch = finished / (1 + 1)) :
    Reached (duo lock holder (.readForms ⟨forms, token, lock.epoch,
      finished⟩ [] forms) writer) := by
  refine h.step (fun forms' token' finished' heq => ?_) (step_reader trivial rfl)
  injection heq with _ _ heq
  rw [← heq]
  exact hepoch

/-- A step that fetches no epoch. -/
theorem Reached.runReader (h : Reached (duo lock holder reader writer))
    (hne : ∀ forms token finished, reader ≠ .readEpoch forms token finished) (hrun : reader.Running)
    (heq : threadStep 1 lock reader = (lock', pc)) : Reached (duo lock' holder pc writer) :=
  h.step (t := false) (fun forms token finished h => absurd h (hne forms token finished))
    (step_reader hrun heq)

theorem Reached.stepWriter {w : World Bool Bool ℕ} (h : Reached (duo lock holder reader writer))
    (hne : ∀ forms token finished, writer ≠ .readEpoch forms token finished)
    (hstep : Step 1 (duo lock holder reader writer) true w) : Reached w :=
  h.step (t := true) (fun forms token finished h => absurd h (hne forms token finished)) hstep

/-- The variables after a write of 7 and 8. -/
def sevenEight (post finished : ℕ) : Lock Bool ℕ :=
  ((⟨fun _ => 0, 1, post, 0, 1, finished⟩ : Lock Bool ℕ).assign false 7).assign true 8

/-- The reader has read one variable before the write and the other one in it, and starts again. -/
theorem reached_again :
    Reached (duo (sevenEight 1 1) none (.readToken [false, true]) (.rest none)) := by
  have h0 : Reached (duo ⟨fun _ => 0, 0, 0, 0, 0, 0⟩ none (.rest none) (.rest none)) :=
    ⟨[], duo_initial 1 _⟩
  have h1 := (h0.step (t := false) (fun _ _ _ h => nomatch h) (step_read [false, true])).runReader
    nofun trivial rfl
  have h2 := (h1.fetch rfl).runReader nofun trivial rfl
  have h3 := (h2.stepWriter nofun step_write).stepWriter nofun step_grab
  have h4 := (h3.stepWriter nofun (step_writer trivial rfl)).stepWriter nofun
    (step_writer trivial rfl)
  have h5 := (h4.stepWriter nofun (step_assign false 7)).stepWriter nofun (step_assign true 8)
  have h6 := (h5.runReader nofun trivial rfl).runReader nofun trivial rfl
  have h7 := (h6.stepWriter nofun step_leave).stepWriter nofun (step_writer trivial rfl)
  have h8 := (h7.stepWriter nofun (step_writer trivial rfl)).stepWriter nofun step_release
  exact h8.runReader nofun trivial rfl

theorem frlock_run_written : ∃ past w, Run 1 (FetchesEpochOfToken 1) past w ∧
    w = duo (sevenEight 1 1) none (.rest (some [(false, 7), (true, 8)])) (.rest none) ∧
    w.lock.preCounter = w.lock.postCounter ∧ Consistent (w :: past) [(false, 7), (true, 8)] := by
  have h1 := ((reached_again.runReader nofun trivial rfl).fetch rfl).runReader nofun trivial rfl
  have h2 := (h1.runReader nofun trivial rfl).runReader nofun trivial rfl
  obtain ⟨past, hrun⟩ :
      Reached (duo (sevenEight 1 1) none (.rest (some [(false, 7), (true, 8)])) (.rest none)) :=
    h2.runReader nofun trivial rfl
  exact ⟨past, _, hrun, rfl, (frlock_run hrun).1 rfl,
    (frlock_run hrun).2 (fun _ _ h => h) false _ rfl⟩

/-! ## A torn read -/

/-- The variables are zero unless the writer is in its body. -/
def ZeroBetween (w : World Bool Bool ℕ) : Prop := w.lock.mem = (fun _ => 0) ∨ w.thread true = .body

/-- The state of a run on whose way the variables have been zero between the writes. -/
def ZeroRun (m : ℕ) (w : World Bool Bool ℕ) : Prop :=
  ∃ past, Run m (fun _ _ => True) past w ∧ ∀ v ∈ w :: past, ZeroBetween v

namespace ZeroRun

theorem step {w w' : World Bool Bool ℕ} {t : Bool} (h : ZeroRun m w) (hstep : Step m w t w')
    (hw' : ZeroBetween w') : ZeroRun m w' := by
  obtain ⟨past, hrun, hzero⟩ := h
  refine ⟨w :: past, .step hrun trivial hstep, fun v hv => ?_⟩
  rcases List.mem_cons.1 hv with rfl | hv
  · exact hw'
  · exact hzero v hv

theorem run_reader (h : ZeroRun m (duo lock holder reader writer)) (hrun : reader.Running)
    (heq : threadStep m lock reader = (lock', pc))
    (hzero : ZeroBetween (duo lock' holder pc writer)) :
    ZeroRun m (duo lock' holder pc writer) := h.step (step_reader hrun heq) hzero

theorem run_writer (h : ZeroRun m (duo lock holder reader writer)) (hrun : writer.Running)
    (heq : threadStep m lock writer = (lock', pc))
    (hzero : ZeroBetween (duo lock' holder reader pc)) :
    ZeroRun m (duo lock' holder reader pc) := h.step (step_writer hrun heq) hzero

theorem call (h : ZeroRun m (duo lock none reader (.rest none))) (hzero : lock.mem = fun _ => 0) :
    ZeroRun m (duo lock (some true) reader .readPreCounter) :=
  (h.step step_write (.inl hzero)).step step_grab (.inl hzero)

end ZeroRun

/-- The lock after so many writes in the first turn, which assign nothing. -/
def afterWrites (n : ℕ) : Lock Bool ℕ := ⟨fun _ => 0, n, n, 0, n, n⟩

def duringWrite (n : ℕ) : Lock Bool ℕ := ⟨fun _ => 0, n + 1, n, 0, n + 1, n⟩

theorem increase_of_lt {n : ℕ} (h : n < m) : increase m n = n + 1 := mod_eq_of_lt (succ_lt_succ h)

theorem increase_self (m : ℕ) : increase m m = 0 := mod_self (m + 1)

theorem ZeroRun.write {n : ℕ} (hn : n < m)
    (h : ZeroRun m (duo (afterWrites n) none reader (.rest none))) :
    ZeroRun m (duo (afterWrites (n + 1)) none reader (.rest none)) := by
  have h1 := h.call rfl
  have hpre : threadStep m (afterWrites n) .readPreCounter =
      (afterWrites n, .setPreCounter (n + 1)) := by
    dsimp only [threadStep, afterWrites]
    rw [increase_of_lt hn, if_neg (succ_ne_zero n)]
  have h2 : ZeroRun m (duo (duringWrite n) (some true) reader .body) :=
    (h1.run_writer trivial hpre (.inl rfl)).run_writer trivial rfl (.inl rfl)
  have hpost : threadStep m (duringWrite n) .readPostCounter =
      (duringWrite n, .setPostCounter (n + 1)) := by
    dsimp only [threadStep, duringWrite]
    rw [increase_of_lt hn]
  have h3 := (h2.step step_leave (.inl rfl)).run_writer trivial hpost (.inl rfl)
  exact (h3.run_writer trivial rfl (.inl rfl)).step step_release (.inl rfl)

theorem zeroRun_turn (m : ℕ) :
    ∀ n ≤ m, ZeroRun m (duo (afterWrites n) none (.readEpoch [false, true] 0 0) (.rest none)) := by
  intro n hn
  induction n with
  | zero =>
    have h0 : ZeroRun m (duo (afterWrites 0) none (.rest none) (.rest none)) := by
      refine ⟨[], duo_initial m _, fun v hv => ?_⟩
      rw [List.mem_singleton.1 hv]
      exact .inl rfl
    have h1 := h0.step (step_read [false, true]) (.inl rfl)
    exact h1.run_reader trivial rfl (.inl rfl)
  | succ n ih => exact (ih (le_of_succ_le hn)).write hn

/-- The lock at the end of the turn, in a new epoch whose first write has assigned one of the
variables. -/
def halfWritten (m : ℕ) : Lock Bool ℕ := Lock.assign ⟨fun _ => 0, 0, m, 1, m + 1, m⟩ true 1

/-- The reader fetches the new epoch before the counter turns over, and reads the other variable
before the body. -/
theorem zeroRun_torn (m : ℕ) :
    ZeroRun m (duo (halfWritten m) (some true) (.rest (some [(false, 0), (true, 1)])) .body) := by
  have h1 := (zeroRun_turn m m le_rfl).call rfl
  have hpre : threadStep m (afterWrites m) .readPreCounter = (afterWrites m, .setEpoch 0) := by
    dsimp only [threadStep, afterWrites]
    rw [increase_self, if_pos rfl]
  have h2 := (h1.run_writer trivial hpre (.inl rfl)).run_writer trivial rfl (.inl rfl)
  have h3 := (h2.run_reader trivial rfl (.inl rfl)).run_reader trivial rfl (.inl rfl)
  have h4 := (h3.run_writer trivial rfl (.inl rfl)).step (step_assign true 1) (.inr rfl)
  have h5 := (h4.run_reader trivial rfl (.inr rfl)).run_reader trivial rfl (.inr rfl)
  exact h5.run_reader trivial rfl (.inr rfl)

theorem exists_torn (m : ℕ) : ∃ past, ∃ w : World Bool Bool ℕ, ∃ values,
    Run m (fun _ _ => True) past w ∧
    w.thread false = .rest (some values) ∧ ¬ Consistent (w :: past) values := by
  obtain ⟨past, hrun, hzero⟩ := zeroRun_torn m
  refine ⟨past, _, [(false, 0), (true, 1)], hrun, rfl, fun hconsistent => ?_⟩
  obtain ⟨v, hv, hbetween, hvalues⟩ := hconsistent
  rcases hzero v hv with hmem | hbody
  · have hone := hvalues (true, 1) (.tail _ (.head _))
    rw [hmem] at hone
    exact absurd hone Nat.zero_ne_one
  · exact hbetween true hbody

/-- The counters of the code, of 62 bits. -/
theorem not_consistent_fixnum : ¬ ∀ past (w : World Bool Bool ℕ) t values,
    Run (2 ^ 62 - 1) (fun _ _ => True) past w →
    w.thread t = .rest (some values) → Consistent (w :: past) values := by
  obtain ⟨past, w, values, hrun, hrest, hnot⟩ := exists_torn (2 ^ 62 - 1)
  exact fun hall => hnot (hall past w false values hrun hrest)

end Duo

end Sbcl.Concurrency.Frlock
