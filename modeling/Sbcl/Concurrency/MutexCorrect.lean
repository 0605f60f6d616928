import Sbcl.Concurrency.Mutex

/-!
# The mutex excludes, and loses no wake

* `Occupied` : the state word is zero when no thread is between its swap of that word and its last
  store of it, and there is one such thread otherwise;
* `Owned` : the owner word is the holder's from the end of its acquisition to its release;
* `Served` : while a thread sleeps the state is contested, or another thread is going to contest it
  or to wake a sleeper;
* `mutex_run` : every run.
-/

namespace Sbcl.Concurrency.Mutex

open Function

variable {T : Type}

namespace Thread

/-- The thread is between its swap of the state word and its last store of it. -/
def Occupies (th : Thread) : Prop := th.holds = true ∨ th.pc = .releaseState ∨ th.pc = .storeZero

/-- The thread has stored its id, and has not taken it back. -/
def Owns (th : Thread) : Prop := th.holds = true ∧ th.pc ≠ .setOwner

structure WellFormed (th : Thread) : Prop where
  acquiring : th.pc = .setOwner → th.holds = true
  releasing : th.pc = .releaseState ∨ th.pc = .storeZero → th.holds = false

end Thread

/-- The steps at which holding the mutex is not the same as occupying and owning it. -/
def Pc.Between : Pc → Prop
  | .setOwner | .releaseState | .storeZero => True
  | _ => False

theorem Pc.between_iff {pc : Pc} : pc.Between ↔ pc = .setOwner ∨ pc = .releaseState ∨
    pc = .storeZero := by
  cases pc <;> simp [Between]

section Plain

variable {th : Thread} {pc : Pc}

theorem occupies_iff (h : ¬ th.pc.Between) : th.Occupies ↔ th.holds = true := by
  rw [Pc.between_iff] at h
  push Not at h
  simp [Thread.Occupies, h.2.1, h.2.2]

theorem owns_iff (h : ¬ th.pc.Between) : th.Owns ↔ th.holds = true := by
  rw [Pc.between_iff] at h
  push Not at h
  simp [Thread.Owns, h.1]

theorem wellFormed_of_not_between (h : ¬ th.pc.Between) : th.WellFormed := by
  rw [Pc.between_iff] at h
  push Not at h
  exact ⟨fun heq => absurd heq h.1, fun heq => heq.elim (fun heq => absurd heq h.2.1) fun heq =>
    absurd heq h.2.2⟩

theorem Thread.Owns.occupies (h : th.Owns) : th.Occupies := .inl h.1

end Plain

/-! ## The state word -/

/-- The state word is not zero when there is an occupant. -/
def Occupied (w : World T) : Prop :=
  ∃ occupant : Option T, (∀ t, (w.thread t).Occupies ↔ occupant = some t) ∧
    (occupant = none ∧ w.words.state = 0 ∨ occupant ≠ none ∧
      (w.words.state = 1 ∨ w.words.state = 2))

def Owned (w : World T) : Prop := ∀ t, w.words.owner = some t ↔ (w.thread t).Owns

variable {w w' : World T} {t u : T} {words : Words T} {th : Thread}

namespace Occupied

theorem unique (h : Occupied w) (ht : (w.thread t).Occupies)
    (hu : (w.thread u).Occupies) : t = u := by
  obtain ⟨occupant, hocc, -⟩ := h
  exact Option.some.inj (((hocc t).1 ht).symm.trans ((hocc u).1 hu))

theorem state_cases (h : Occupied w) : w.words.state = 0 ∨ w.words.state = 1 ∨
    w.words.state = 2 := by
  obtain ⟨occupant, -, ⟨-, hstate⟩ | ⟨-, hstate⟩⟩ := h
  · exact .inl hstate
  · exact .inr hstate

theorem state_of_occupies (h : Occupied w) (ht : (w.thread t).Occupies) : w.words.state = 1 ∨
    w.words.state = 2 := by
  obtain ⟨occupant, hocc, ⟨hnone, -⟩ | ⟨-, hstate⟩⟩ := h
  · exact nomatch ((hocc t).1 ht).symm.trans hnone
  · exact hstate

theorem state_eq_zero (h : Occupied w) (hfree : ∀ t, ¬ (w.thread t).Occupies) :
    w.words.state = 0 := by
  obtain ⟨occupant, hocc, ⟨-, hstate⟩ | ⟨hsome, -⟩⟩ := h
  · exact hstate
  · obtain ⟨t, ht⟩ := Option.ne_none_iff_exists'.1 hsome
    exact absurd ((hocc t).2 ht) (hfree t)

end Occupied

variable [DecidableEq T]

@[simp] theorem set_words : (w.set t th).words = w.words := rfl

@[simp] theorem set_thread_self : (w.set t th).thread t = th := by simp [World.set]

theorem set_thread_of_ne (h : u ≠ t) : (w.set t th).thread u = w.thread u := by simp [World.set, h]

namespace Occupied

theorem keep (h : Occupied w) (hocc : th.Occupies ↔ (w.thread t).Occupies)
    (hstate : words.state = w.words.state ∨ w.words.state ≠ 0 ∧
      (words.state = 1 ∨ words.state = 2)) :
    Occupied ({ w with words := words }.set t th) := by
  obtain ⟨occupant, hoccupant, hcases⟩ := h
  refine ⟨occupant, fun u => ?_, ?_⟩
  · by_cases hu : u = t
    · subst hu
      rw [set_thread_self, hocc]
      exact hoccupant u
    · rw [set_thread_of_ne hu]
      exact hoccupant u
  · rw [set_words]
    rcases hstate with heq | ⟨hne, hstate⟩
    · dsimp only
      rw [heq]
      exact hcases
    · rcases hcases with ⟨-, hzero⟩ | ⟨hsome, -⟩
      · exact absurd hzero hne
      · exact .inr ⟨hsome, hstate⟩

theorem acquire (h : Occupied w) (hzero : w.words.state = 0) (hocc : th.Occupies)
    (hstate : words.state = 1 ∨ words.state = 2) :
    Occupied ({ w with words := words }.set t th) := by
  refine ⟨some t, fun u => ?_, .inr ⟨Option.some_ne_none t, hstate⟩⟩
  by_cases hu : u = t
  · subst hu
    rw [set_thread_self]
    exact iff_of_true hocc rfl
  rw [set_thread_of_ne hu]
  refine iff_of_false (fun hother => ?_) fun heq => hu (Option.some.inj heq).symm
  have := h.state_of_occupies hother
  omega

theorem vacate (h : Occupied w) (ht : (w.thread t).Occupies) (hocc : ¬ th.Occupies)
    (hstate : words.state = 0) : Occupied ({ w with words := words }.set t th) := by
  refine ⟨none, fun u => ?_, .inl ⟨rfl, hstate⟩⟩
  by_cases hu : u = t
  · subst hu
    rw [set_thread_self]
    exact iff_of_false hocc (fun heq => nomatch heq)
  · rw [set_thread_of_ne hu]
    exact iff_of_false (fun hother => hu (h.unique hother ht)) (fun heq => nomatch heq)

end Occupied

/-! ## The owner word -/

namespace Owned

theorem set (h : Owned w) (hself : words.owner = some t ↔ th.Owns)
    (hothers : ∀ u, u ≠ t → (words.owner = some u ↔ w.words.owner = some u)) :
    Owned ({ w with words := words }.set t th) := by
  intro u
  by_cases hu : u = t
  · subst hu
    rw [set_thread_self]
    exact hself
  · rw [set_thread_of_ne hu]
    exact (hothers u hu).trans (h u)

theorem keep (h : Owned w) (howns : th.Owns ↔ (w.thread t).Owns)
    (howner : words.owner = w.words.owner) : Owned ({ w with words := words }.set t th) := by
  refine h.set ?_ fun u _ => by rw [howner]
  rw [howner, howns]
  exact h t

end Owned

structure Invariant (w : World T) : Prop where
  wellFormed : ∀ t, (w.thread t).WellFormed
  occupied : Occupied w
  owned : Owned w

omit [DecidableEq T] in
theorem initial_invariant : Invariant (World.initial : World T) where
  wellFormed _ := wellFormed_of_not_between id
  occupied := ⟨none, fun _ => iff_of_false (by rw [occupies_iff id]; exact Bool.false_ne_true)
    (fun heq => nomatch heq), .inl ⟨rfl, rfl⟩⟩
  owned _ := iff_of_false (fun heq => nomatch heq) (by rw [owns_iff id]; exact Bool.false_ne_true)

namespace Invariant

theorem wellFormed_set (hw : Invariant w) (h : th.WellFormed) (u : T) :
    ((w.set t th).thread u).WellFormed := by
  by_cases hu : u = t
  · subst hu
    rw [set_thread_self]
    exact h
  · rw [set_thread_of_ne hu]
    exact hw.wellFormed u

theorem keep (hw : Invariant w) {pc : Pc} (hpc : ¬ (w.thread t).pc.Between) (hpc' : ¬ pc.Between)
    (howner : words.owner = w.words.owner)
    (hstate : words.state = w.words.state ∨ w.words.state ≠ 0 ∧
      (words.state = 1 ∨ words.state = 2)) :
    Invariant ({ w with words := words }.set t ((w.thread t).goto pc)) where
  wellFormed := hw.wellFormed_set (wellFormed_of_not_between hpc')
  occupied := hw.occupied.keep (by rw [occupies_iff hpc, occupies_iff hpc']; exact Iff.rfl) hstate
  owned := hw.owned.keep (by rw [owns_iff hpc, owns_iff hpc']; exact Iff.rfl) howner

theorem goto (hw : Invariant w) {pc : Pc} (hpc : ¬ (w.thread t).pc.Between) (hpc' : ¬ pc.Between) :
    Invariant (w.goto t pc) :=
  hw.keep hpc hpc' rfl (.inl rfl)

theorem acquire (hw : Invariant w) (hzero : w.words.state = 0)
    (howner : words.owner = w.words.owner)
    (hstate : words.state = 1 ∨ words.state = 2) :
    Invariant ({ w with words := words }.set t .acquired) where
  wellFormed := hw.wellFormed_set ⟨fun _ => rfl, fun h => h.elim Pc.noConfusion Pc.noConfusion⟩
  occupied := hw.occupied.acquire hzero (.inl rfl) hstate
  owned := by
    refine hw.owned.keep (iff_of_false (fun h => h.2 rfl) fun h => ?_) howner
    have := hw.occupied.state_of_occupies h.occupies
    omega

theorem setOwner (hw : Invariant w) (hpc : (w.thread t).pc = .setOwner) :
    Invariant ({ w with words := ⟨w.words.state, some t⟩ }.set t
      ((w.thread t).goto (.rest (.value true)))) := by
  have hholds := (hw.wellFormed t).acquiring hpc
  have hocc : (w.thread t).Occupies := .inl hholds
  have hown : ((w.thread t).goto (.rest (.value true))).Owns := ⟨hholds, Pc.noConfusion⟩
  refine ⟨hw.wellFormed_set (wellFormed_of_not_between id), ?_, ?_⟩
  · exact hw.occupied.keep (iff_of_true hown.occupies hocc) (.inl rfl)
  · refine hw.owned.set (iff_of_true rfl hown) fun u hu =>
      iff_of_false (fun heq => ?_) fun heq => ?_
    · exact hu (Option.some.inj heq).symm
    · exact hu (hw.occupied.unique ((hw.owned u).1 heq).occupies hocc)

theorem releaseOwner (hw : Invariant w) (howner : w.words.owner = some t) :
    Invariant ({ w with words := ⟨w.words.state, none⟩ }.set t ⟨.releaseState, false⟩) := by
  have hocc := ((hw.owned t).1 howner).occupies
  refine ⟨hw.wellFormed_set ⟨Pc.noConfusion, fun _ => rfl⟩, ?_, ?_⟩
  · exact hw.occupied.keep (iff_of_true (.inr (.inl rfl)) hocc) (.inl rfl)
  · refine hw.owned.set (iff_of_false (fun heq => nomatch heq) fun h => Bool.false_ne_true h.1)
      fun u hu => ?_
    refine iff_of_false (fun heq => nomatch heq) fun heq => hu ?_
    exact hw.occupied.unique ((hw.owned u).1 heq).occupies hocc

omit [DecidableEq T] in
theorem releasing (hw : Invariant w)
    (hpc : (w.thread t).pc = .releaseState ∨ (w.thread t).pc = .storeZero) (pc : Pc) :
    ¬ ((w.thread t).goto pc).Owns ∧ ¬ (w.thread t).Owns := by
  have hholds := (hw.wellFormed t).releasing hpc
  exact ⟨fun h => Bool.false_ne_true (hholds.symm.trans h.1),
    fun h => Bool.false_ne_true (hholds.symm.trans h.1)⟩

theorem vacate (hw : Invariant w)
    (hpc : (w.thread t).pc = .releaseState ∨ (w.thread t).pc = .storeZero) {pc : Pc}
    (hpc' : ¬ pc.Between) {state : ℤ} (hstate : state = 0) :
    Invariant ({ w with words := ⟨state, w.words.owner⟩ }.set t ((w.thread t).goto pc)) := by
  obtain ⟨howns', howns⟩ := hw.releasing hpc pc
  refine ⟨hw.wellFormed_set (wellFormed_of_not_between hpc'), ?_,
    hw.owned.keep (iff_of_false howns' howns) rfl⟩
  refine hw.occupied.vacate (.inr hpc) ?_ hstate
  rw [occupies_iff hpc']
  exact fun h => Bool.false_ne_true (((hw.wellFormed t).releasing hpc).symm.trans h)

theorem releaseState (hw : Invariant w) (hpc : (w.thread t).pc = .releaseState) :
    Invariant ({ w with words := ⟨w.words.state - 1, w.words.owner⟩ }.set t
      ((w.thread t).goto (if w.words.state = 1 then .rest (.value false) else .storeZero))) := by
  have hocc : (w.thread t).Occupies := .inr (.inl hpc)
  have hstate := hw.occupied.state_of_occupies hocc
  by_cases hone : w.words.state = 1
  · rw [if_pos hone]
    exact hw.vacate (.inl hpc) id (by omega)
  rw [if_neg hone]
  obtain ⟨howns', howns⟩ := hw.releasing (.inl hpc) .storeZero
  have hholds := (hw.wellFormed t).releasing (.inl hpc)
  refine ⟨hw.wellFormed_set ⟨Pc.noConfusion, fun _ => hholds⟩, ?_,
    hw.owned.keep (iff_of_false howns' howns) rfl⟩
  have hone' : w.words.state - 1 = 1 := by omega
  exact hw.occupied.keep (iff_of_true (.inr (.inr rfl)) hocc) (.inr ⟨by omega, .inl hone'⟩)

theorem contested_not_between (timed : Bool) (c : ℤ) : ¬ (contested timed c).Between := by
  unfold contested
  split <;> exact id

theorem run (hw : Invariant w) (hrun : (w.thread t).pc.Running) :
    Invariant ({ w with words := (threadStep t w.words (w.thread t)).1 }.set t
      (threadStep t w.words (w.thread t)).2) := by
  unfold threadStep
  cases hpc : (w.thread t).pc with
  | tryState =>
    dsimp only
    split
    · exact hw.acquire ‹_› rfl (.inl rfl)
    · exact hw.keep (by rw [hpc]; exact id) id rfl (.inl rfl)
  | lockState timed =>
    dsimp only
    split
    · exact hw.acquire ‹_› rfl (.inl rfl)
    · exact hw.keep (by rw [hpc]; exact id) (contested_not_between timed _) rfl (.inl rfl)
  | contend timed =>
    dsimp only
    split
    · exact hw.acquire ‹_› rfl (.inr rfl)
    · exact hw.keep (by rw [hpc]; exact id) (contested_not_between timed _) rfl (.inl rfl)
  | mark timed =>
    dsimp only
    refine hw.keep (by rw [hpc]; exact id) ?_ ?_ ?_
    · split <;> exact id
    · split <;> rfl
    · split
      · exact .inr ⟨by omega, .inr rfl⟩
      · exact .inl rfl
  | wait timed =>
    refine hw.keep (by rw [hpc]; exact id) ?_ rfl (.inl rfl)
    split <;> exact id
  | tryOwner | returned timed => exact hw.keep (by rw [hpc]; exact id) id rfl (.inl rfl)
  | setOwner => exact hw.setOwner hpc
  | releaseOwner =>
    dsimp only
    split
    · exact hw.releaseOwner ‹_›
    · exact hw.keep (by rw [hpc]; exact id) id rfl (.inl rfl)
  | releaseState => exact hw.releaseState hpc
  | storeZero => exact hw.vacate (.inr hpc) id rfl
  | rest | asleep | wake =>
    rw [hpc] at hrun
    exact hrun.elim

theorem step (hw : Invariant w) (h : Step w t w') : Invariant w' := by
  have hb : ∀ {u pc}, (w.thread u).pc = pc → ¬ pc.Between → ¬ (w.thread u).pc.Between :=
    fun heq h => by rwa [heq]
  cases h with
  | call pc hrest hentry =>
    obtain ⟨outcome, hpc⟩ := hrest
    refine hw.goto (hb hpc id) ?_
    cases pc <;> first | exact hentry.elim | exact id
  | run hrun => exact hw.run hrun
  | spurious timed hpc => exact hw.goto (hb hpc id) id
  | timeout hpc => exact hw.goto (hb hpc id) id
  | unwind hpc =>
    refine hw.goto (fun h => ?_) id
    cases hth : (w.thread t).pc <;> rw [hth] at hpc h <;> first | exact hpc | exact h
  | wakeNone outcome hpc hnone => exact hw.goto (hb hpc id) id
  | wakeOne u outcome timed hpc hasleep =>
    have h1 : Invariant (w.goto t (.rest outcome)) := hw.goto (hb hpc id) id
    refine h1.goto ?_ id
    by_cases hu : u = t
    · subst hu
      rw [World.goto, set_thread_self]
      exact id
    · rw [World.goto, set_thread_of_ne hu]
      exact hb hasleep id

end Invariant

/-! ## Wakes -/

/-- The thread is going to contest the state or to wake a sleeper. -/
def Pc.Restoring : Pc → Prop
  | .mark _ | .contend _ | .returned _ | .storeZero | .wake _ => True
  | _ => False

/-- While a thread sleeps, whoever has the mutex knows of it or a wake is on its way. -/
def Served (w : World T) : Prop :=
  (∃ t, (w.thread t).pc.Asleep) → w.words.state = 2 ∨ ∃ u, (w.thread u).pc.Restoring

theorem threadStep_restoring (hw : Invariant w) (h : w.words.state = 2 ∨ (w.thread t).pc.Restoring)
    (hrun : (w.thread t).pc.Running) :
    (threadStep t w.words (w.thread t)).1.state = 2 ∨
    (threadStep t w.words (w.thread t)).2.pc.Restoring := by
  have hstate := hw.occupied.state_cases
  unfold threadStep
  cases hpc : (w.thread t).pc with
  | mark timed =>
    dsimp only [Thread.goto]
    by_cases hzero : w.words.state = 0
    · rw [if_neg (not_not.2 hzero)]
      exact .inr trivial
    refine .inl ?_
    split
    · rfl
    · omega
  | contend timed =>
    dsimp only [Thread.goto]
    split
    · exact .inl rfl
    unfold contested
    split
    · exact .inl ‹_›
    · exact .inr trivial
  | returned timed => exact .inr trivial
  | storeZero => exact .inr trivial
  | releaseState =>
    rw [hpc] at h
    have htwo : w.words.state = 2 := h.elim id fun h => h.elim
    refine .inr ?_
    dsimp only [Thread.goto]
    rw [if_neg (by omega)]
    trivial
  | tryState | lockState =>
    rw [hpc] at h
    have htwo : w.words.state = 2 := h.elim id fun h => h.elim
    dsimp only
    rw [if_neg (by omega)]
    exact .inl htwo
  | tryOwner | wait | setOwner =>
    rw [hpc] at h
    exact .inl (h.elim id fun h => h.elim)
  | releaseOwner =>
    rw [hpc] at h
    have htwo : w.words.state = 2 := h.elim id fun h => h.elim
    dsimp only
    split <;> exact .inl htwo
  | rest | asleep | wake =>
    rw [hpc] at hrun
    exact hrun.elim

theorem threadStep_asleep (hrun : (w.thread t).pc.Running)
    (h : (threadStep t w.words (w.thread t)).2.pc.Asleep) :
    (threadStep t w.words (w.thread t)).1.state = 2 := by
  obtain ⟨timed, h⟩ := h
  revert h
  unfold threadStep
  cases hpc : (w.thread t).pc with
  | wait timed =>
    dsimp only [Thread.goto]
    split
    · exact fun _ => ‹_›
    · exact Pc.noConfusion
  | mark timed =>
    dsimp only [Thread.goto]
    split <;> exact Pc.noConfusion
  | contend timed | lockState timed =>
    dsimp only [Thread.goto]
    split
    · exact Pc.noConfusion
    · unfold contested
      split <;> exact Pc.noConfusion
  | tryState | releaseOwner =>
    dsimp only [Thread.goto]
    split <;> exact Pc.noConfusion
  | releaseState =>
    dsimp only [Thread.goto]
    split <;> exact Pc.noConfusion
  | tryOwner | returned | setOwner | storeZero => exact Pc.noConfusion
  | rest | asleep | wake =>
    rw [hpc] at hrun
    exact hrun.elim

namespace Served

omit [DecidableEq T] in
theorem of_restoring (h : (w.thread u).pc.Restoring) : Served w := fun _ => .inr ⟨u, h⟩

/-- A thread goes on that was not going to wake anybody, and does not go to sleep. -/
theorem goto (h : Served w) {pc : Pc} (hpc : ¬ (w.thread t).pc.Restoring) (hpc' : ¬ pc.Asleep) :
    Served (w.goto t pc) := by
  intro ⟨s, hs⟩
  have hst : s ≠ t := by
    rintro rfl
    rw [World.goto, set_thread_self] at hs
    exact hpc' hs
  rw [World.goto, set_thread_of_ne hst] at hs
  rcases h ⟨s, hs⟩ with hstate | ⟨u, hu⟩
  · exact .inl hstate
  have hut : u ≠ t := by
    rintro rfl
    exact hpc hu
  refine .inr ⟨u, ?_⟩
  rw [World.goto, set_thread_of_ne hut]
  exact hu

theorem goto_restoring {pc : Pc} (hpc : pc.Restoring) : Served (w.goto t pc) :=
  of_restoring (u := t) (by rw [World.goto, set_thread_self]; exact hpc)

theorem run (hw : Invariant w) (h : Served w) (hrun : (w.thread t).pc.Running) :
    Served ({ w with words := (threadStep t w.words (w.thread t)).1 }.set t
      (threadStep t w.words (w.thread t)).2) := by
  intro ⟨s, hs⟩
  by_cases hst : s = t
  · subst hst
    rw [set_thread_self] at hs
    exact .inl (threadStep_asleep hrun hs)
  rw [set_thread_of_ne hst] at hs
  -- The thread that was to serve the sleeper is this one, or goes on as it was.
  have hself : w.words.state = 2 ∨ (w.thread t).pc.Restoring → _ :=
    fun hself => threadStep_restoring hw hself hrun
  rcases h ⟨s, hs⟩ with hstate | ⟨u, hu⟩
  · refine (hself (.inl hstate)).imp id fun hpc => ⟨t, ?_⟩
    rw [set_thread_self]
    exact hpc
  by_cases hut : u = t
  · subst hut
    refine (hself (.inr hu)).imp id fun hpc => ⟨u, ?_⟩
    rw [set_thread_self]
    exact hpc
  · refine .inr ⟨u, ?_⟩
    rw [set_thread_of_ne hut]
    exact hu

theorem step (hw : Invariant w) (h : Served w) (hstep : Step w t w') : Served w' := by
  cases hstep with
  | call pc hrest hentry =>
    obtain ⟨outcome, hpc⟩ := hrest
    refine h.goto (by rw [hpc]; exact id) ?_
    rintro ⟨timed, rfl⟩
    exact hentry
  | run hrun => exact h.run hw hrun
  | spurious timed hpc => exact goto_restoring trivial
  | timeout hpc => exact h.goto (by rw [hpc]; exact id) fun ⟨timed, heq⟩ => Pc.noConfusion heq
  | unwind hpc => exact goto_restoring trivial
  | wakeOne u outcome timed hpc hasleep => exact goto_restoring trivial
  | wakeNone outcome hpc hnone =>
    intro ⟨s, hs⟩
    by_cases hst : s = t
    · subst hst
      rw [World.goto, set_thread_self] at hs
      exact nomatch hs
    · rw [World.goto, set_thread_of_ne hst] at hs
      exact absurd hs (hnone s)

end Served

/-! ## Results -/

/-- A call that is over with T has acquired the mutex, and one that wakes another thread on its way
out has not. -/
structure Thread.Told (th : Thread) : Prop where
  holds : th.pc = .rest (.value true) → th.holds = true
  waking : th.pc ≠ .wake (.value true)

theorem told_goto {pc : Pc} (hrest : pc ≠ .rest (.value true)) (hwake : pc ≠ .wake (.value true)) :
    (th.goto pc).Told :=
  ⟨fun h => absurd h hrest, hwake⟩

theorem contested_told {timed : Bool} {c : ℤ} : (th.goto (contested timed c)).Told := by
  unfold contested
  split <;> exact ⟨Pc.noConfusion, Pc.noConfusion⟩

theorem threadStep_told (hw : Invariant w) (hrun : (w.thread t).pc.Running) :
    (threadStep t w.words (w.thread t)).2.Told := by
  unfold threadStep
  cases hpc : (w.thread t).pc with
  | setOwner => exact ⟨fun _ => (hw.wellFormed t).acquiring hpc, Pc.noConfusion⟩
  | lockState timed | contend timed =>
    dsimp only
    split
    · exact ⟨Pc.noConfusion, Pc.noConfusion⟩
    · exact contested_told
  | tryOwner =>
    refine ⟨fun h => ?_, Pc.noConfusion⟩
    dsimp only [Thread.goto] at h
    split at h <;> cases h
  | releaseState =>
    refine ⟨fun h => ?_, fun h => ?_⟩ <;> dsimp only [Thread.goto] at h <;> split at h <;> cases h
  | storeZero => exact ⟨Pc.noConfusion, fun h => nomatch h⟩
  | tryState | releaseOwner =>
    dsimp only
    split
    · exact ⟨Pc.noConfusion, Pc.noConfusion⟩
    · exact ⟨fun h => (nomatch h), Pc.noConfusion⟩
  | mark timed | wait timed =>
    dsimp only [Thread.goto]
    split <;> exact ⟨Pc.noConfusion, Pc.noConfusion⟩
  | returned timed => exact ⟨Pc.noConfusion, Pc.noConfusion⟩
  | rest | asleep | wake =>
    rw [hpc] at hrun
    exact hrun.elim

theorem told_set (h : ∀ u, (w.thread u).Told) (hth : th.Told) (u : T) :
    ((w.set t th).thread u).Told := by
  by_cases hu : u = t
  · subst hu
    rwa [set_thread_self]
  · rw [set_thread_of_ne hu]
    exact h u

omit [DecidableEq T] in
theorem told_of_wake {outcome : Outcome} (h : (w.thread t).Told)
    (hpc : (w.thread t).pc = .wake outcome) : ((w.thread t).goto (.rest outcome)).Told :=
  ⟨fun hvalue => absurd (hpc.trans (congrArg Pc.wake (Pc.rest.inj hvalue))) h.waking,
    Pc.noConfusion⟩

theorem told_step (hw : Invariant w) (h : ∀ u, (w.thread u).Told) (hstep : Step w t w') (u : T) :
    (w'.thread u).Told := by
  cases hstep with
  | call pc hrest hentry =>
    refine told_set h ⟨?_, ?_⟩ u
    · rintro rfl
      exact hentry.elim
    · rintro rfl
      exact hentry
  | run hrun => exact told_set (w := { w with words := _ }) h (threadStep_told hw hrun) u
  | spurious timed hpc => exact told_set h (told_goto (by simp) (by simp)) u
  | timeout hpc => exact told_set h (told_goto (by simp) (by simp)) u
  | unwind hpc => exact told_set h (told_goto (by simp) (by simp)) u
  | wakeNone outcome hpc hnone => exact told_set h (told_of_wake (h t) hpc) u
  | wakeOne v outcome timed hpc hasleep =>
    exact told_set (told_set h (told_of_wake (h t) hpc)) (told_goto (by simp) (by simp)) u

/-! ## Runs -/

theorem Reachable.invariant (h : Reachable w) : Invariant w := by
  induction h with
  | initial => exact initial_invariant
  | step _ hstep ih => exact ih.step hstep

theorem Reachable.served (h : Reachable w) : Served w := by
  induction h with
  | initial => exact fun ⟨_, _, h⟩ => nomatch h
  | step hreach hstep ih => exact ih.step hreach.invariant hstep

theorem Reachable.told (h : Reachable w) : ∀ t, (w.thread t).Told := by
  induction h with
  | initial => exact fun _ => ⟨fun h => (nomatch h), Pc.noConfusion⟩
  | step hreach hstep ih => exact told_step hreach.invariant ih hstep

theorem exists_step (hrest : ¬ (w.thread t).pc.AtRest) (hasleep : ¬ (w.thread t).pc.Asleep) :
    ∃ w', Step w t w' := by
  cases hpc : (w.thread t).pc with
  | rest outcome => exact absurd ⟨outcome, hpc⟩ hrest
  | asleep timed => exact absurd ⟨timed, hpc⟩ hasleep
  | wake outcome =>
    by_cases hsleeper : ∃ u, (w.thread u).pc.Asleep
    · obtain ⟨u, timed, hu⟩ := hsleeper
      exact ⟨_, .wakeOne w t u outcome timed hpc hu⟩
    · exact ⟨_, .wakeNone w t outcome hpc fun u hu => hsleeper ⟨u, hu⟩⟩
  | tryState | tryOwner | lockState | mark | wait | returned | contend | setOwner | releaseOwner | releaseState | storeZero =>
    exact ⟨_, .run w t (by rw [hpc]; trivial)⟩

omit [DecidableEq T] in
theorem Pc.Restoring.active {pc : Pc} (h : pc.Restoring) : ¬ pc.AtRest ∧ ¬ pc.Asleep := by
  refine ⟨?_, ?_⟩
  · rintro ⟨outcome, rfl⟩
    exact h
  · rintro ⟨timed, rfl⟩
    exact h

omit [DecidableEq T] in
theorem exists_active (hw : Invariant w) (hserved : Served w) (hfree : w.Free)
    (hasleep : ∃ t, (w.thread t).pc.Asleep) :
    ∃ u, ¬ (w.thread u).pc.AtRest ∧ ¬ (w.thread u).pc.Asleep := by
  by_cases hocc : ∃ u, (w.thread u).Occupies
  · obtain ⟨u, hholds | hpc⟩ := hocc
    · exact absurd ((hfree u).symm.trans hholds) Bool.false_ne_true
    refine ⟨u, ?_, ?_⟩
    · rintro ⟨outcome, heq⟩
      exact hpc.elim (fun h => nomatch heq.symm.trans h) fun h => nomatch heq.symm.trans h
    · rintro ⟨timed, heq⟩
      exact hpc.elim (fun h => nomatch heq.symm.trans h) fun h => nomatch heq.symm.trans h
  · have hzero := hw.occupied.state_eq_zero fun u hu => hocc ⟨u, hu⟩
    rcases hserved hasleep with htwo | ⟨u, hu⟩
    · omega
    · exact ⟨u, hu.active⟩

/-- One thread at most holds the mutex, as one does whose call returned T, a release by another
changes nothing, the owner is the holder from the end of its acquisition to its release, and where
nobody holds the mutex while a thread sleeps, some thread of an unfinished call has a step. -/
theorem mutex_run (h : Reachable w) :
    (∀ t u, (w.thread t).holds = true → (w.thread u).holds = true → t = u) ∧
      (∀ t w', (w.thread t).pc = .releaseOwner → (w.thread t).holds = false → Step w t w' →
        w' = w.goto t (.rest (.value false))) ∧
      (∀ t, (w.thread t).pc = .rest (.value true) → (w.thread t).holds = true) ∧
      (∀ t, (w.thread t).holds = true → (w.thread t).pc ≠ .setOwner → w.words.owner = some t) ∧
      (w.Free → (∃ t, (w.thread t).pc.Asleep) →
        ∃ u w', ¬ (w.thread u).pc.AtRest ∧ ¬ (w.thread u).pc.Asleep ∧ Step w u w') := by
  have hw := h.invariant
  refine ⟨fun t u ht hu => hw.occupied.unique (.inl ht) (.inl hu), fun t w' hpc hholds hstep => ?_,
    fun t => (h.told t).holds, fun t ht hpc => ?_, fun hfree hasleep => ?_⟩
  · have hother : w.words.owner ≠ some t := fun howner =>
      Bool.false_ne_true (hholds.symm.trans ((hw.owned t).1 howner).1)
    cases hstep with
    | run hrun =>
      unfold threadStep
      rw [hpc]
      dsimp only
      rw [if_neg hother]
      rfl
    | call _ hrest _ => exact nomatch hrest.choose_spec.symm.trans hpc
    | spurious _ h | wakeOne _ _ _ h _ | wakeNone _ h _ => exact nomatch hpc.symm.trans h
    | timeout h => exact nomatch hpc.symm.trans h
    | unwind h =>
      rw [hpc] at h
      exact h.elim
  · exact (hw.owned t).2 ⟨ht, hpc⟩
  · obtain ⟨u, hrest, hsleep⟩ := exists_active hw h.served hfree hasleep
    obtain ⟨w', hstep⟩ := exists_step hrest hsleep
    exact ⟨u, w', hrest, hsleep, hstep⟩

section Pair

/-- Two threads. -/
def pair (words : Words Bool) (x y : Thread) : World Bool := ⟨words, fun t => bif t then y else x⟩

variable {words words' : Words Bool} {x y th : Thread}

theorem pair_set_false : (pair words x y).set false th = pair words th y := by
  refine congrArg (World.mk words) (funext fun t => ?_)
  cases t <;> rfl

theorem pair_set_true : (pair words x y).set true th = pair words x th := by
  refine congrArg (World.mk words) (funext fun t => ?_)
  cases t <;> rfl

theorem pair_run_false (h : Reachable (pair words x y)) (hrun : x.pc.Running)
    (heq : threadStep false words x = (words', th)) : Reachable (pair words' th y) := by
  have hstep :
      Step (pair words x y) false ((pair (threadStep false words x).1 x y).set false
        (threadStep false words x).2) :=
    .run _ false hrun
  rw [heq, pair_set_false] at hstep
  exact h.step hstep

theorem pair_run_true (h : Reachable (pair words x y)) (hrun : y.pc.Running)
    (heq : threadStep true words y = (words', th)) : Reachable (pair words' x th) := by
  have hstep :
      Step (pair words x y) true
        ((pair (threadStep true words y).1 x y).set true (threadStep true words y).2) :=
    .run _ true hrun
  rw [heq, pair_set_true] at hstep
  exact h.step hstep

theorem pair_call_false {pc : Pc} (h : Reachable (pair words x y)) (hrest : x.pc.AtRest)
    (hentry : pc.Entry) : Reachable (pair words (x.goto pc) y) := by
  have hstep : Step (pair words x y) false ((pair words x y).set false (x.goto pc)) :=
    .call _ false pc hrest hentry
  rw [pair_set_false] at hstep
  exact h.step hstep

theorem pair_call_true {pc : Pc} (h : Reachable (pair words x y)) (hrest : y.pc.AtRest)
    (hentry : pc.Entry) : Reachable (pair words x (y.goto pc)) := by
  have hstep : Step (pair words x y) true ((pair words x y).set true (y.goto pc)) :=
    .call _ true pc hrest hentry
  rw [pair_set_true] at hstep
  exact h.step hstep

theorem reachable_sleeper :
    Reachable (pair ⟨2, none⟩ ⟨.releaseState, false⟩ ⟨.asleep false, false⟩) := by
  have h0 : Reachable (pair ⟨0, none⟩ ⟨.rest (.value false),
      false⟩ ⟨.rest (.value false), false⟩) := by
    have hinitial :
        World.initial = pair ⟨0, none⟩ ⟨.rest (.value false),
          false⟩ ⟨.rest (.value false), false⟩ :=
      congrArg (World.mk _) (funext fun t => by cases t <;> rfl)
    exact hinitial ▸ .initial
  have h1 := @pair_call_false _ _ _ .tryState h0 ⟨_, rfl⟩ trivial
  have h2 := pair_run_false (pair_run_false h1 trivial rfl) trivial rfl
  have h3 := @pair_call_true _ _ _ (.lockState false) h2 ⟨_, rfl⟩ trivial
  have h4 := pair_run_true (pair_run_true (pair_run_true h3 trivial rfl) trivial rfl) trivial rfl
  have h5 := @pair_call_false _ _ _ .releaseOwner h4 ⟨_, rfl⟩ trivial
  exact pair_run_false h5 trivial rfl

theorem mutex_run_sleeper :
    Reachable (pair ⟨2, none⟩ ⟨.releaseState, false⟩ ⟨.asleep false, false⟩) ∧
    ∃ u w', ¬ ((pair ⟨2, none⟩ ⟨.releaseState, false⟩ ⟨.asleep false, false⟩).thread u).pc.AtRest ∧
      ¬ ((pair ⟨2, none⟩ ⟨.releaseState, false⟩ ⟨.asleep false, false⟩).thread u).pc.Asleep ∧
      Step (pair ⟨2, none⟩ ⟨.releaseState, false⟩ ⟨.asleep false, false⟩) u w' :=
  ⟨reachable_sleeper,
    (mutex_run reachable_sleeper).2.2.2.2 (fun t => by cases t <;> rfl) ⟨true, false, rfl⟩⟩

end Pair

end Sbcl.Concurrency.Mutex
