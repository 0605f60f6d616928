import Mathlib.Algebra.BigOperators.Fin
import Sbcl.Concurrency.Rwlock

/-!
# The reader-writer lock excludes, and loses no wake

* `encode` : the fields of the state word, with a lemma for each operation on it;
* `LockConsistent` : the state word and the counts are those of the threads; `LockConsistent.step` :
  every step keeps it;
* `Served` : where the lock is free and a thread waits, another thread is on its way to wake it;
  `Served.step` : kept by every step while no wake word comes round;
* `rwlock_run` : every run.
-/

namespace Sbcl.Concurrency

open Function Finset
open Finset (mem_univ single_le_sum sum_congr sum_eq_zero)
open Int (bit_val land_bit lor_bit)

variable {pc' : Pc} {serial : ℕ} {old : ℤ}

/-! ## The fields of the state word -/

/-- The word of a writer or none, of so many readers, with the flags for pending writers and
readers. -/
def encode (owned count : ℕ) (writers readers : Bool) : ℤ :=
  Int.bit readers (Int.bit writers ((2 ^ 29 * owned + count : ℕ) : ℤ))

section Encode
variable {owned count : ℕ} (w r : Bool)

theorem encode_eq : encode owned count w r = 2 ^ 31 * owned + 4 * count + (if w then 2 else 0) +
    if r then 1 else 0 := by
  unfold encode
  rw [bit_val, bit_val]
  cases w <;> cases r <;> simp <;> ring

theorem testBit_owned (hc : count < 2 ^ 29) (ho : owned ≤ 1) :
    (2 ^ 29 * owned + count).testBit 29 = decide (owned = 1) := by
  rw [Nat.testBit_eq_decide_div_mod_eq]
  exact decide_eq_decide.2 (by omega)

theorem rwlLockedP_encode (hc : count < 2 ^ 29) (ho : owned ≤ 1) :
    rwlLockedP (encode owned count w r) = decide (owned = 1 ∨ 0 < count) := by
  unfold rwlLockedP ldb
  rw [ash_neg, encode_eq]
  refine decide_eq_decide.2 ?_
  cases w <;> cases r <;> simp <;> omega

theorem rwlOwnedByWriterP_encode (hc : count < 2 ^ 29) (ho : owned ≤ 1) :
    rwlOwnedByWriterP (encode owned count w r) = decide (owned = 1) := by
  unfold rwlOwnedByWriterP encode
  rw [Int.testBit_bit_succ, Int.testBit_bit_succ, IntBits.testBit_natCast, testBit_owned hc ho]

theorem ownedByWriter_eq :
    ownedByWriter = Int.bit false (Int.bit false ((2 ^ 29 : ℕ) : ℤ)) := by decide

theorem canAcquire_reader_encode (hc : count < 2 ^ 29) (ho : owned ≤ 1) :
    canAcquire .reader (encode owned count w r) = decide (owned = 0 ∧ w = false) := by
  have hmask : logior ownedByWriter pendingWritersFlag =
      Int.bit false (Int.bit true ((2 ^ 29 : ℕ) : ℤ)) := by
    decide
  have hland : Int.land ((2 ^ 29 * owned + count : ℕ) : ℤ) ((2 ^ 29 : ℕ) : ℤ) =
      if owned = 1 then 2 ^ 29 else 0 := by
    rw [show Int.land ((2 ^ 29 * owned + count : ℕ) : ℤ) ((2 ^ 29 : ℕ) : ℤ) =
      (((2 ^ 29 * owned + count) &&& 2 ^ 29 : ℕ) : ℤ) from rfl, Nat.and_two_pow,
      testBit_owned hc ho]
    by_cases h : owned = 1 <;> simp [h]
  rw [canAcquire]
  unfold encode logand
  rw [hmask, land_bit, land_bit, hland, bit_val, bit_val]
  refine decide_eq_decide.2 ?_
  by_cases h : owned = 1 <;> cases w <;> cases r <;> simp [h] <;> omega

theorem canAcquire_writer_encode (hc : count < 2 ^ 29) (ho : owned ≤ 1) :
    canAcquire .writer (encode owned count w r) = decide (owned = 0 ∧ count = 0) := by
  rw [canAcquire, rwlLockedP_encode w r hc ho, ← decide_not]
  exact decide_eq_decide.2 (by omega)

theorem logior_flag_encode (side : Side) :
    logior (encode owned count w r) side.flag =
      encode owned count (w || decide (side = .writer)) (r || decide (side = .reader)) := by
  have hzero : Int.lor ((2 ^ 29 * owned + count : ℕ) : ℤ) 0 = ((2 ^ 29 * owned + count : ℕ) : ℤ) :=
    congrArg Int.ofNat (Nat.or_zero _)
  unfold encode logior
  cases side with
  | reader =>
    rw [show Side.flag .reader = Int.bit true (Int.bit false 0) by decide, lor_bit, lor_bit, hzero]
    rfl
  | writer =>
    rw [show Side.flag .writer = Int.bit false (Int.bit true 0) by decide, lor_bit, lor_bit, hzero]
    rfl

theorem clear_flag_encode (side : Side) :
    logand (encode owned count w r) (lognot side.flag) =
      encode owned count (w && decide (side ≠ .writer)) (r && decide (side ≠ .reader)) := by
  have hone : Int.land ((2 ^ 29 * owned + count : ℕ) : ℤ) (-1) =
      ((2 ^ 29 * owned + count : ℕ) : ℤ) := by
    rw [IntBits.land_comm, IntBits.neg_one_land]
  unfold encode logand
  cases side with
  | reader =>
    rw [show lognot (Side.flag .reader) = Int.bit false (Int.bit true (-1)) by decide,
      land_bit, land_bit, hone]
    rfl
  | writer =>
    rw [show lognot (Side.flag .writer) = Int.bit true (Int.bit false (-1)) by decide,
      land_bit, land_bit, hone]
    rfl

theorem acquired_reader_encode : acquired .reader (encode owned count w r) =
    encode owned (count + 1) w r := by
  rw [acquired, encode_eq, encode_eq, show ash 1 readerCountShift = 4 by decide]
  push_cast
  ring

theorem acquired_writer_encode : acquired .writer (encode 0 0 w r) = encode 1 0 w r := by
  rw [acquired]
  unfold encode logior
  rw [ownedByWriter_eq, lor_bit, lor_bit, Bool.or_false, Bool.or_false]
  rfl

theorem released_reader_encode : released .reader (encode owned (count + 1) w r) =
    encode owned count w r := by
  rw [released, encode_eq, encode_eq, show ash 1 readerCountShift = 4 by decide]
  push_cast
  ring

theorem released_writer_encode : released .writer (encode 1 0 w r) = encode 0 0 w r := by
  have hmask :
      lognot ownedByWriter = Int.bit true (Int.bit true (Int.lnot ((2 ^ 29 : ℕ) : ℤ))) := by decide
  rw [released]
  unfold encode logand
  rw [hmask, land_bit, land_bit, Bool.and_true, Bool.and_true, show
    Int.land ((2 ^ 29 * 1 + 0 : ℕ) : ℤ) (Int.lnot ((2 ^ 29 : ℕ) : ℤ)) =
    ((2 ^ 29 * 0 + 0 : ℕ) : ℤ) by decide +kernel]

theorem logand_flags_encode : logand (encode owned count w r) 3 = 0 ↔ w = false ∧ r = false := by
  have hzero : Int.land ((2 ^ 29 * owned + count : ℕ) : ℤ) 0 = 0 :=
    congrArg Int.ofNat (Nat.and_zero _)
  unfold encode logand
  rw [show (3 : ℤ) = Int.bit true (Int.bit true 0) by decide, land_bit, land_bit, hzero]
  cases w <;> cases r <;> decide

theorem logand_flag_encode (side : Side) :
    logand (encode owned count w r) side.flag ≠ 0 ↔
    (match side with | .writer => w | .reader => r) = true := by
  have hzero : Int.land ((2 ^ 29 * owned + count : ℕ) : ℤ) 0 = 0 :=
    congrArg Int.ofNat (Nat.and_zero _)
  unfold encode logand
  cases side with
  | reader =>
    rw [show Side.flag .reader = Int.bit true (Int.bit false 0) by decide, land_bit,
      land_bit, hzero]
    cases w <;> cases r <;> decide
  | writer =>
    rw [show Side.flag .writer = Int.bit false (Int.bit true 0) by decide, land_bit,
      land_bit, hzero]
    cases w <;> cases r <;> decide

theorem two_readers_le_encode (hc : count < 2 ^ 29) :
    ash 2 readerCountShift ≤ encode owned count w r ↔ 1 ≤ owned ∨ 2 ≤ count := by
  rw [encode_eq, show ash 2 readerCountShift = 8 by decide]
  cases w <;> cases r <;> simp <;> omega

theorem testBit_acquired_encode (hc : count < 2 ^ 29) :
    (acquired .reader (encode 0 count w r)).testBit 31 = decide (count + 1 = 2 ^ 29) := by
  rw [acquired_reader_encode]
  unfold encode
  rw [Int.testBit_bit_succ, Int.testBit_bit_succ, IntBits.testBit_natCast,
    Nat.testBit_eq_decide_div_mod_eq]
  exact decide_eq_decide.2 (by omega)

theorem readerCount_encode (hc : count < 2 ^ 29) :
    readerCount (encode owned count w r) = count := by
  unfold readerCount ldb
  rw [ash_neg, encode_eq]
  cases w <;> cases r <;> simp <;> omega

end Encode

/-! ## Counting threads -/

/-- The thread is counted as pending. -/
def Pc.isRegistered (side : Side) : Pc → Bool
  | .wait s _ | .asleep s _ | .deregister s => s = side
  | _ => false

/-- The thread id in the lock is that of the thread. -/
def Thread.owns (th : Thread) : Bool :=
  th.writing && match th.pc with
    | .setTid | .readRelease .writer | .casRelease .writer _ => false
    | _ => true

variable {T : Type} [Fintype T]

namespace World

def readers (w : World T) : ℕ := ∑ t, (w.thread t).reading

def writers (w : World T) : ℕ := ∑ t, if (w.thread t).writing then 1 else 0

def registered (w : World T) (side : Side) : ℕ :=
  ∑ t, if (w.thread t).pc.isRegistered side then 1 else 0

end World

variable {w w' : World T} {t u : T} {side : Side} {th : Thread} {lock : Rwlock}

section Sums
variable [DecidableEq T]

theorem sum_update (f : Thread → ℕ) (threads : T → Thread) (t : T) (th : Thread) :
    (∑ u, f (update threads t th u)) + f (threads t) = (∑ u, f (threads u)) + f th := by
  have herase : ∑ u ∈ Finset.univ.erase t, f (update threads t th u) = ∑ u ∈ Finset.univ.erase t,
      f (threads u) :=
    sum_congr rfl fun u hu => by rw [update_of_ne (ne_of_mem_erase hu)]
  rw [← add_sum_erase Finset.univ (fun u => f (update threads t th u)) (mem_univ t),
    ← add_sum_erase Finset.univ (fun u => f (threads u)) (mem_univ t), herase, update_self]
  omega

theorem readers_set (w : World T) (t : T) (th : Thread) :
    (w.set t th).readers + (w.thread t).reading = w.readers + th.reading :=
  sum_update Thread.reading w.thread t th

theorem writers_set (w : World T) (t : T) (th : Thread) :
    (w.set t th).writers + (if (w.thread t).writing then 1 else 0) = w.writers +
      if th.writing then 1 else 0 :=
  sum_update (fun th => if th.writing then 1 else 0) w.thread t th

theorem registered_set (w : World T) (t : T) (th : Thread) (side : Side) :
    (w.set t th).registered side + (if (w.thread t).pc.isRegistered side then 1 else 0) =
      w.registered side + if th.pc.isRegistered side then 1 else 0 :=
  sum_update (fun th => if th.pc.isRegistered side then 1 else 0) w.thread t th

end Sums

theorem le_readers (w : World T) (t : T) : (w.thread t).reading ≤ w.readers :=
  single_le_sum (f := fun t => (w.thread t).reading) (fun _ _ => Nat.zero_le _) (mem_univ t)

theorem writers_pos (h : (w.thread t).writing = true) : 0 < w.writers := by
  have hle : (if (w.thread t).writing then 1 else 0) ≤ w.writers :=
    single_le_sum (f := fun t => if (w.thread t).writing then 1 else 0) (fun _ _ => Nat.zero_le _)
      (mem_univ t)
  rw [if_pos h] at hle
  exact hle

theorem registered_pos (h : (w.thread t).pc.isRegistered side = true) : 0 < w.registered side := by
  have hle : (if (w.thread t).pc.isRegistered side then 1 else 0) ≤ w.registered side :=
    single_le_sum (f := fun t => if (w.thread t).pc.isRegistered side then 1 else 0)
      (fun _ _ => Nat.zero_le _) (mem_univ t)
  rw [if_pos h] at hle
  exact hle

theorem exists_registered (h : 0 < w.registered side) :
    ∃ t, (w.thread t).pc.isRegistered side = true := by
  by_contra hnone
  push Not at hnone
  refine absurd h (Nat.not_lt.2 (Nat.le_of_eq (sum_eq_zero fun t _ => ?_)))
  rw [if_neg (hnone t)]

theorem eq_of_writing (hone : w.writers ≤ 1) (ht : (w.thread t).writing = true)
    (hu : (w.thread u).writing = true) : t = u := by
  classical
  by_contra hne
  have hpair := sum_le_sum_of_subset (f := fun t => if (w.thread t).writing then 1 else 0)
    (subset_univ ({t, u} : Finset T))
  rw [sum_pair hne, if_pos ht, if_pos hu] at hpair
  exact absurd (Nat.le_trans hpair hone) (by decide)

/-- What a thread knows between two steps. -/
def Knows (lock : Rwlock) (th : Thread) : Prop :=
  match th.pc with
  | .casLock side _ old => canAcquire side old = true ∧
    (side = .reader → (acquired side old).testBit 31 = false)
  | .setTid | .averTid | .clearTid | .readRelease .writer | .casRelease .writer _ =>
    th.writing = true
  | .unlock => 0 < th.reading ∨ th.writing = true
  | .readRelease .reader | .casRelease .reader _ => 0 < th.reading
  | .wait side serial | .asleep side serial => serial ≤ (lock.pending side).wakeWord
  | _ => True

theorem Knows.mono {lock' : Rwlock} (h : Knows lock th)
    (hwake : ∀ side, (lock.pending side).wakeWord ≤ (lock'.pending side).wakeWord) :
    Knows lock' th := by
  obtain ⟨pc, reading, writing⟩ := th
  match pc with
  | .wait side serial | .asleep side serial => exact Nat.le_trans h (hwake side)
  | .rest _ | .tryLock _ _ | .casLock _ _ _ | .setTid | .checkTid _ | .readState _ | .register
    _ | .deregister _ | .unlock
  | .averTid | .clearTid | .readRelease .reader | .readRelease .writer | .casRelease .reader
    _ | .casRelease .writer _
  | .wakeSection | .wake _ => exact h

/-! ## The sections of the mutex -/

theorem wakeWord_register (side s : Side) : ((lock.register side).pending s).wakeWord =
    (lock.pending s).wakeWord := by
  by_cases hs : s = side <;> simp [Rwlock.register, Rwlock.setPending, hs]

theorem wakeWord_deregister (side s : Side) : ((lock.deregister side).pending s).wakeWord =
    (lock.pending s).wakeWord := by
  by_cases hs : s = side <;> simp [Rwlock.deregister, Rwlock.setPending, hs]

theorem wakeWord_addWake (side s : Side) :
    ((lock.addWake side).pending s).wakeWord = (lock.pending s).wakeWord +
      if s = side then 1 else 0 := by
  by_cases hs : s = side <;> simp [Rwlock.addWake, Rwlock.setPending, hs]

theorem count_register (side s : Side) :
    ((lock.register side).pending s).count = (lock.pending s).count +
      if side = s then 1 else 0 := by
  by_cases hs : side = s
  · simp [Rwlock.register, Rwlock.setPending, hs]
  · simp [Rwlock.register, Rwlock.setPending, hs, Ne.symm hs]

theorem count_deregister (side s : Side) :
    ((lock.deregister side).pending s).count = (lock.pending s).count -
      if side = s then 1 else 0 := by
  by_cases hs : side = s
  · simp [Rwlock.deregister, Rwlock.setPending, hs]
  · simp [Rwlock.deregister, Rwlock.setPending, hs, Ne.symm hs]

theorem count_addWake (side s : Side) : ((lock.addWake side).pending s).count =
    (lock.pending s).count := by
  by_cases hs : s = side <;> simp [Rwlock.addWake, Rwlock.setPending, hs]

variable (ids : ThreadIds T)

structure LockConsistent (w : World T) : Prop where
  state : w.lock.state = encode w.writers w.readers (decide (0 < (w.lock.pending .writer).count))
    (decide (0 < (w.lock.pending .reader).count))
  readers_lt : w.readers < 2 ^ 29
  exclusive : w.writers = 0 ∨ w.writers = 1 ∧ w.readers = 0
  count : ∀ side, (w.lock.pending side).count = w.registered side
  tid : ∀ t, w.lock.writerTid = ids.tid t ↔ (w.thread t).owns = true
  knows : ∀ t, Knows w.lock (w.thread t)

variable {ids}

theorem lockConsistent_initial : LockConsistent ids (World.initial : World T) where
  state := by
    have hr : (World.initial : World T).readers = 0 := sum_eq_zero fun _ _ => rfl
    have hw : (World.initial : World T).writers = 0 := sum_eq_zero fun _ _ => rfl
    rw [hr, hw]
    show (0 : ℤ) = encode 0 0 false false
    decide
  readers_lt := by
    have hr : (World.initial : World T).readers = 0 := sum_eq_zero fun _ _ => rfl
    rw [hr]
    decide
  exclusive := Or.inl (sum_eq_zero fun _ _ => rfl)
  count side := (sum_eq_zero fun _ _ => rfl).symm
  tid t := by
    constructor
    · intro h
      exact absurd h (Nat.ne_of_lt (ids.pos t))
    · intro h
      cases h
  knows t := trivial

namespace LockConsistent

variable (h : LockConsistent ids w)
include h

theorem writers_le : w.writers ≤ 1 := by
  rcases h.exclusive with h0 | ⟨h1, -⟩ <;> omega

theorem locked_iff : rwlLockedP w.lock.state = decide (w.writers = 1 ∨ 0 < w.readers) := by
  rw [h.state]
  exact rwlLockedP_encode _ _ h.readers_lt h.writers_le

theorem owned_iff : rwlOwnedByWriterP w.lock.state = decide (w.writers = 1) := by
  rw [h.state]
  exact rwlOwnedByWriterP_encode _ _ h.readers_lt h.writers_le

theorem canAcquire_reader : canAcquire .reader w.lock.state = true ↔ w.writers = 0 ∧
    w.registered .writer = 0 := by
  rw [h.state, canAcquire_reader_encode _ _ h.readers_lt h.writers_le, decide_eq_true_iff,
    h.count .writer, decide_eq_false_iff_not, Nat.pos_iff_ne_zero, not_not]

theorem canAcquire_writer : canAcquire .writer w.lock.state = true ↔ w.writers = 0 ∧
    w.readers = 0 := by
  rw [h.state, canAcquire_writer_encode _ _ h.readers_lt h.writers_le, decide_eq_true_iff]

variable {pc : Pc}

theorem knowsAt (hpc : (w.thread t).pc = pc) : Knows w.lock ((w.thread t).goto pc) := by
  rw [← hpc]
  exact h.knows t

variable [DecidableEq T]

theorem change (hstate : lock.state = encode (w.set t th).writers (w.set t th).readers
      (decide (0 < (lock.pending .writer).count)) (decide (0 < (lock.pending .reader).count)))
    (hlt : (w.set t th).readers < 2 ^ 29)
    (hexclusive : (w.set t th).writers = 0 ∨ (w.set t th).writers = 1 ∧ (w.set t th).readers = 0)
    (hcount : ∀ side, (lock.pending side).count = (w.set t th).registered side)
    (howns : lock.writerTid = ids.tid t ↔ th.owns = true)
    (hothers : ∀ u, u ≠ t → (lock.writerTid = ids.tid u ↔ (w.thread u).owns = true))
    (hwake : ∀ side, (w.lock.pending side).wakeWord ≤ (lock.pending side).wakeWord)
    (hknows : Knows lock th) : LockConsistent ids ({ w with lock := lock }.set t th) := by
  refine ⟨hstate, hlt, hexclusive, hcount, fun u => ?_, fun u => ?_⟩
  · by_cases hu : u = t
    · rw [hu, World.set_thread_self]
      exact howns
    · rw [World.set_thread_of_ne _ _ hu]
      exact hothers u hu
  · by_cases hu : u = t
    · rw [hu, World.set_thread_self]
      exact hknows
    · rw [World.set_thread_of_ne _ _ hu]
      exact (h.knows u).mono hwake

theorem quiet (hlock : lock.state = w.lock.state)
    (hpending : ∀ side, (lock.pending side).count = (w.lock.pending side).count)
    (hwake : ∀ side, (w.lock.pending side).wakeWord ≤ (lock.pending side).wakeWord)
    (hreading : th.reading = (w.thread t).reading) (hwriting : th.writing = (w.thread t).writing)
    (hregistered : ∀ side, th.pc.isRegistered side = (w.thread t).pc.isRegistered side)
    (howns : lock.writerTid = ids.tid t ↔ th.owns = true)
    (hothers : ∀ u, u ≠ t → (lock.writerTid = ids.tid u ↔ (w.thread u).owns = true))
    (hknows : Knows lock th) : LockConsistent ids ({ w with lock := lock }.set t th) := by
  have hr : (w.set t th).readers = w.readers := by
    have := readers_set w t th
    omega
  have hw : (w.set t th).writers = w.writers := by
    have := writers_set w t th
    rw [hwriting] at this
    omega
  refine h.change ?_ ?_ ?_ (fun side => ?_) howns hothers hwake hknows
  · rw [hr, hw, hlock, hpending, hpending]
    exact h.state
  · rw [hr]
    exact h.readers_lt
  · rw [hr, hw]
    exact h.exclusive
  · have := registered_set w t th side
    rw [hregistered side] at this
    rw [hpending side, h.count side]
    omega

/-- A step that only moves the thread on. -/
theorem goto (hregistered : ∀ side, pc.isRegistered side = (w.thread t).pc.isRegistered side)
    (howns : ((w.thread t).goto pc).owns = (w.thread t).owns)
    (hknows : Knows w.lock ((w.thread t).goto pc)) : LockConsistent ids (w.goto t pc) :=
  h.quiet rfl (fun _ => rfl) (fun _ => Nat.le_refl _) rfl rfl hregistered
    (by rw [howns]; exact h.tid t) (fun u _ => h.tid u) hknows

variable {side : Side}

theorem acquire {slow : Bool} (hpc : (w.thread t).pc = .casLock side slow old)
    (heq : w.lock.state = old) :
    LockConsistent ids ({ w with lock := { w.lock with state := acquired side old } }.set t
      ((w.thread t).acquire side)) := by
  obtain ⟨hcan, hoverflow⟩ := h.knowsAt hpc
  rw [← heq] at hcan hoverflow ⊢
  have hr := readers_set w t ((w.thread t).acquire side)
  have hw := writers_set w t ((w.thread t).acquire side)
  have hreg : ∀ s, (w.set t ((w.thread t).acquire side)).registered s = w.registered s :=
    fun s => by
    have := registered_set w t ((w.thread t).acquire side) s
    rw [hpc] at this
    cases side <;> exact this
  cases side with
  | reader =>
    obtain ⟨hwriters, -⟩ := h.canAcquire_reader.1 hcan
    have hoverflow := hoverflow rfl
    rw [h.state, hwriters, testBit_acquired_encode _ _ h.readers_lt,
      decide_eq_false_iff_not] at hoverflow
    have hr' : (w.set t ((w.thread t).acquire .reader)).readers = w.readers + 1 := by
      have hone : ((w.thread t).acquire .reader).reading = (w.thread t).reading + 1 := rfl
      omega
    have hw' : (w.set t ((w.thread t).acquire .reader)).writers = w.writers :=
      Nat.add_right_cancel hw
    have hlt := h.readers_lt
    refine h.change ?_ (by omega) (Or.inl (hw'.trans hwriters)) (fun s =>
      (h.count s).trans (hreg s).symm) ?_
      (fun u _ => h.tid u) (fun _ => Nat.le_refl _) trivial
    · rw [hr', hw', ← acquired_reader_encode]
      exact congrArg (acquired .reader) h.state
    · rw [show w.lock.writerTid = ids.tid t ↔ (w.thread t).owns = true from h.tid t,
        Thread.owns, hpc]
      rfl
  | writer =>
    obtain ⟨hwriters, hreaders⟩ := h.canAcquire_writer.1 hcan
    have hnot : (w.thread t).writing = false := by
      by_contra hwriting
      have := writers_pos (Bool.eq_true_of_not_eq_false hwriting)
      omega
    rw [hnot] at hw
    have hr' : (w.set t ((w.thread t).acquire .writer)).readers = 0 := by
      have hsame : ((w.thread t).acquire .writer).reading = (w.thread t).reading := rfl
      omega
    have hw' : (w.set t ((w.thread t).acquire .writer)).writers = 1 := by
      rw [hwriters] at hw
      exact hw
    refine h.change ?_ (by rw [hr']; decide) (Or.inr ⟨hw', hr'⟩) (fun s =>
      (h.count s).trans (hreg s).symm) ?_
      (fun u _ => h.tid u) (fun _ => Nat.le_refl _) rfl
    · rw [hr', hw', ← acquired_writer_encode]
      refine congrArg (acquired .writer) (h.state.trans ?_)
      rw [hwriters, hreaders]
    · rw [show w.lock.writerTid = ids.tid t ↔ (w.thread t).owns = true from h.tid t,
        Thread.owns, hnot]
      exact Iff.rfl

theorem release (hpc : (w.thread t).pc = .casRelease side old) (heq : w.lock.state = old) :
    LockConsistent ids ({ w with lock := { w.lock with state := released side old } }.set t
      ((w.thread t).release (afterRelease side old) side)) := by
  have hknows := h.knowsAt hpc
  rw [← heq]
  generalize hth : (w.thread t).release (afterRelease side w.lock.state) side = th
  have hpc' : th.pc = afterRelease side w.lock.state := by
    rw [← hth]
    cases side <;> rfl
  have hr := readers_set w t th
  have hw := writers_set w t th
  have hafter : ∀ s, (afterRelease side w.lock.state).isRegistered s = false := fun s => by
    unfold afterRelease
    split_ifs <;> rfl
  have hcount : ∀ s, (w.lock.pending s).count = (w.set t th).registered s := fun s => by
    have := registered_set w t th s
    rw [hpc, hpc', hafter s] at this
    exact (h.count s).trans (Nat.add_right_cancel this).symm
  have hknows' : Knows w.lock th := by
    unfold Knows
    rw [hpc']
    unfold afterRelease
    split_ifs <;> trivial
  cases side with
  | reader =>
    have hle := le_readers w t
    have hreads : 0 < (w.thread t).reading := hknows
    have hwriters : w.writers = 0 := by
      rcases h.exclusive with h0 | ⟨-, h0⟩
      · exact h0
      · omega
    have hnot : (w.thread t).writing = false := by
      by_contra hwriting
      have := writers_pos (Bool.eq_true_of_not_eq_false hwriting)
      omega
    have hlt := h.readers_lt
    have hr' : w.readers = (w.set t th).readers + 1 := by
      have hone : th.reading = (w.thread t).reading - 1 := hth ▸ rfl
      omega
    have hwriting : th.writing = (w.thread t).writing := hth ▸ rfl
    have hw' : (w.set t th).writers = w.writers := by
      rw [hwriting] at hw
      exact Nat.add_right_cancel hw
    refine h.change ?_ (by omega) (Or.inl (hw'.trans hwriters)) hcount ?_ (fun u _ => h.tid u)
      (fun _ => Nat.le_refl _) hknows'
    · rw [hw', ← released_reader_encode, ← hr']
      exact congrArg (released .reader) h.state
    · rw [show w.lock.writerTid = ids.tid t ↔ (w.thread t).owns = true from h.tid t, Thread.owns,
        hnot, Bool.false_and, Thread.owns, hwriting, hnot, Bool.false_and]
  | writer =>
    have hpos := writers_pos hknows
    obtain ⟨hwriters, hreaders⟩ : w.writers = 1 ∧ w.readers = 0 := by
      rcases h.exclusive with h0 | h1
      · omega
      · exact h1
    have hwriting : th.writing = false := hth ▸ rfl
    rw [show (w.thread t).writing = true from hknows, hwriters, hwriting] at hw
    have hr' : (w.set t th).readers = 0 := by
      have hsame : th.reading = (w.thread t).reading := hth ▸ rfl
      omega
    have hw' : (w.set t th).writers = 0 := Nat.add_right_cancel hw
    refine h.change ?_ (by rw [hr']; decide) (Or.inl hw') hcount ?_ (fun u _ => h.tid u) (fun _ =>
      Nat.le_refl _) hknows'
    · rw [hr', hw', ← released_writer_encode]
      refine congrArg (released .writer) (h.state.trans ?_)
      rw [hwriters, hreaders]
    · rw [show w.lock.writerTid = ids.tid t ↔ (w.thread t).owns = true from h.tid t, Thread.owns,
        hpc, Bool.and_false, Thread.owns, hwriting, Bool.false_and]

theorem register (hpc : (w.thread t).pc = .register side)
    (hpc' : ∀ s, pc.isRegistered s = decide (side = s))
    (howns : ((w.thread t).goto pc).owns = (w.thread t).writing)
    (hknows : Knows (w.lock.register side) ((w.thread t).goto pc)) :
    LockConsistent ids ({ w with lock := w.lock.register side }.set t ((w.thread t).goto pc)) := by
  have hr : (w.set t ((w.thread t).goto pc)).readers = w.readers :=
    Nat.add_right_cancel (readers_set w t _)
  have hw : (w.set t ((w.thread t).goto pc)).writers = w.writers :=
    Nat.add_right_cancel (writers_set w t _)
  have hreg : ∀ s, (w.set t ((w.thread t).goto pc)).registered s = w.registered s +
      if side = s then 1 else 0 := fun s => by
    have := registered_set w t ((w.thread t).goto pc) s
    rw [hpc, show ((w.thread t).goto pc).pc = pc from rfl, hpc' s] at this
    simpa [Pc.isRegistered] using this
  refine h.change ?_ (by rw [hr]; exact h.readers_lt) (by rw [hr, hw]; exact h.exclusive)
    (fun s => ?_) ?_ (fun u _ => h.tid u) (fun s => (wakeWord_register side s).ge) hknows
  · rw [hr, hw, count_register, count_register]
    refine (congrArg (logior · side.flag) h.state).trans ?_
    rw [logior_flag_encode]
    cases side <;> simp
  · rw [count_register, hreg, h.count s]
  rw [howns]
  have hown := h.tid t
  unfold Thread.owns at hown
  rw [hpc, Bool.and_true] at hown
  exact hown

theorem deregister (hpc : (w.thread t).pc = .deregister side) :
    LockConsistent ids ({ w with lock := w.lock.deregister side }.set t
      ((w.thread t).goto (.tryLock side true))) := by
  have hr : (w.set t ((w.thread t).goto (.tryLock side true))).readers = w.readers :=
    Nat.add_right_cancel (readers_set w t _)
  have hw : (w.set t ((w.thread t).goto (.tryLock side true))).writers = w.writers :=
    Nat.add_right_cancel (writers_set w t _)
  have hpos : 0 < (w.lock.pending side).count := by
    rw [h.count side]
    exact registered_pos (t := t) (by rw [hpc]; simp [Pc.isRegistered])
  have hreg : ∀ s, (w.set t ((w.thread t).goto (.tryLock side true))).registered s =
      w.registered s - if side = s then 1 else 0 := fun s => by
    have := registered_set w t ((w.thread t).goto (.tryLock side true)) s
    rw [hpc, show ((w.thread t).goto (.tryLock side true)).pc.isRegistered s = false from rfl,
      show (Pc.deregister side).isRegistered s = decide (side = s) from rfl] at this
    by_cases hs : side = s
    · simp [hs] at this ⊢
      omega
    · simpa [hs] using this
  refine h.change ?_ (by rw [hr]; exact h.readers_lt) (by rw [hr, hw]; exact h.exclusive)
    (fun s => ?_) ?_ (fun u _ => h.tid u) (fun s => (wakeWord_deregister side s).ge) trivial
  · rw [hr, hw, count_deregister, count_deregister]
    unfold Rwlock.deregister
    dsimp only
    by_cases hzero : (w.lock.pending side).count - 1 = 0
    · rw [if_pos hzero]
      refine (congrArg (logand · (lognot side.flag)) h.state).trans ?_
      rw [clear_flag_encode]
      cases side <;> simp [hzero]
    · rw [if_neg hzero, h.state]
      have hpos' : 0 < (w.lock.pending side).count - 1 := Nat.pos_of_ne_zero hzero
      cases side <;> simp [hpos, hpos']
  · rw [count_deregister, hreg, h.count s]
  · have hown := h.tid t
    unfold Thread.owns at hown
    rw [hpc, Bool.and_true] at hown
    refine hown.trans ?_
    unfold Thread.owns
    rw [show ((w.thread t).goto (.tryLock side true)).pc = .tryLock side true from rfl,
      Bool.and_true]
    rfl

theorem setTid (hpc : (w.thread t).pc = .setTid) :
    LockConsistent ids ({ w with lock := { w.lock with writerTid := ids.tid t } }.set t
      ((w.thread t).goto (.rest none))) := by
  have hwriting : (w.thread t).writing = true := h.knowsAt hpc
  refine h.quiet rfl (fun _ => rfl) (fun _ => Nat.le_refl _) rfl rfl (fun s => by rw [hpc]; rfl) ?_
    (fun u hu => ?_) trivial
  · unfold Thread.owns
    rw [show ((w.thread t).goto (.rest none)).writing = true from hwriting]
    exact iff_of_true rfl rfl
  · refine iff_of_false (fun heq => hu (ids.injective heq).symm) fun howns => hu ?_
    exact eq_of_writing h.writers_le (Bool.and_eq_true_iff.1 howns).1 hwriting

theorem clearTid (hpc : (w.thread t).pc = .clearTid) :
    LockConsistent ids
      ({ w with lock := { w.lock with writerTid := 0 } }.set t
        ((w.thread t).goto (.readRelease .writer))) := by
  have hwriting : (w.thread t).writing = true := h.knowsAt hpc
  refine h.quiet rfl (fun _ => rfl) (fun _ => Nat.le_refl _) rfl rfl (fun s => by rw [hpc]; rfl) ?_
    (fun u hu => ?_) hwriting
  · refine iff_of_false (Nat.ne_of_lt (ids.pos t)) ?_
    unfold Thread.owns
    rw [show ((w.thread t).goto (.readRelease .writer)).pc = .readRelease .writer from rfl,
      Bool.and_false]
    exact Bool.false_ne_true
  · refine iff_of_false (Nat.ne_of_lt (ids.pos u)) fun howns => hu ?_
    exact eq_of_writing h.writers_le (Bool.and_eq_true_iff.1 howns).1 hwriting

theorem addWake (hpc : (w.thread t).pc = .wakeSection) (side : Side) :
    LockConsistent ids
      ({ w with lock := w.lock.addWake side }.set t ((w.thread t).goto (.wake side))) := by
  refine h.quiet rfl (count_addWake side) (fun s => ?_) rfl rfl (fun s => by rw [hpc]; rfl) ?_
    (fun u _ => h.tid u) trivial
  · rw [wakeWord_addWake]
    exact Nat.le_add_right ..
  have hown := h.tid t
  unfold Thread.owns at hown ⊢
  rw [hpc, Bool.and_true] at hown
  exact hown.trans (by rw [show ((w.thread t).goto (.wake side)).pc = .wake side from rfl, Bool.and_true]; rfl)

/-- A step that only moves the thread on from a place that is counted, and has the id in the lock,
in the same way. -/
theorem move (hpc : (w.thread t).pc = pc) (hknows : Knows w.lock ((w.thread t).goto pc'))
    (hregistered : ∀ side, pc'.isRegistered side = pc.isRegistered side)
    (howns : ((w.thread t).goto pc').owns = ((w.thread t).goto pc).owns) :
    LockConsistent ids (w.goto t pc') := by
  subst hpc
  exact h.goto hregistered howns hknows

omit h in
theorem attempt_isRegistered (side s : Side) (slow : Bool) (old : ℤ) :
    (attempt side slow old).isRegistered s = false := by
  unfold attempt
  split_ifs <;> rfl

omit h in
theorem attempt_owns (th : Thread) (side : Side) (slow : Bool) (old : ℤ) :
    (th.goto (attempt side slow old)).owns = (th.writing && true) := by
  unfold attempt
  split_ifs <;> rfl

omit h in
theorem attempt_knows (th : Thread) (side : Side) (slow : Bool) (old : ℤ) (lock : Rwlock) :
    Knows lock (th.goto (attempt side slow old)) := by
  unfold attempt
  split_ifs with hcan hoverflow
  · trivial
  · refine ⟨hcan, fun hside => ?_⟩
    by_contra hbit
    exact hoverflow ⟨hside, Bool.eq_true_of_not_eq_false hbit⟩
  · trivial
  · trivial

theorem run :
    LockConsistent ids ({ w with lock := (threadStep (ids.tid t) w.lock (w.thread t)).1 }.set t
    (threadStep (ids.tid t) w.lock (w.thread t)).2) := by
  unfold threadStep
  cases hpc : (w.thread t).pc with
  | rest _ | asleep _ _ | wake _ =>
    refine h.quiet rfl (fun _ => rfl) (fun _ => Nat.le_refl _) rfl rfl (fun _ => rfl) (h.tid t)
      (fun u _ => h.tid u) (h.knows t)
  | tryLock side slow =>
    exact h.move hpc (attempt_knows _ _ _ _ _) (attempt_isRegistered _ · _ _) (attempt_owns _ _ _ _)
  | casLock side slow old =>
    dsimp only
    split_ifs with heq
    · exact h.acquire hpc heq
    · exact h.move hpc (attempt_knows _ _ _ _ _) (attempt_isRegistered _ · _ _)
        (attempt_owns _ _ _ _)
  | setTid => exact h.setTid hpc
  | checkTid side | readState side =>
    dsimp only
    split_ifs
    · exact h.move hpc trivial (fun _ => rfl) rfl
    · exact h.move hpc trivial (fun _ => rfl) rfl
  | register side =>
    dsimp only
    split_ifs
    · exact h.register hpc (fun s => rfl) (Bool.and_true _) trivial
    refine h.register hpc (fun s => rfl) (Bool.and_true _) ?_
    show _ ≤ _
    unfold Rwlock.register Rwlock.setPending
    simp
  | wait side serial =>
    have hknows := h.knowsAt hpc
    dsimp only
    split_ifs
    · exact h.move hpc hknows (fun _ => rfl) rfl
    · exact h.move hpc trivial (fun _ => rfl) rfl
  | deregister side => exact h.deregister hpc
  | unlock =>
    have hknows : 0 < (w.thread t).reading ∨ (w.thread t).writing = true := h.knowsAt hpc
    dsimp only
    rw [h.owned_iff, h.locked_iff]
    split_ifs with howned hlocked
    · rw [decide_eq_true_iff] at howned
      refine h.move hpc (hknows.resolve_left fun hread => ?_) (fun _ => rfl) rfl
      have hle := le_readers w t
      rcases h.exclusive with h0 | ⟨-, h0⟩ <;> omega
    · rw [decide_eq_true_iff] at howned
      refine h.move hpc (hknows.resolve_right fun hwrite => ?_) (fun _ => rfl) rfl
      have hpos := writers_pos hwrite
      have hle := h.writers_le
      omega
    · exact h.move hpc trivial (fun _ => rfl) rfl
  | averTid =>
    have hknows := h.knowsAt hpc
    dsimp only
    split_ifs
    · exact h.move hpc hknows (fun _ => rfl) rfl
    · exact h.move hpc trivial (fun _ => rfl) rfl
  | clearTid => exact h.clearTid hpc
  | readRelease side =>
    have hknows := h.knowsAt hpc
    cases side <;> exact h.move hpc hknows (fun _ => rfl) rfl
  | casRelease side old =>
    dsimp only
    split_ifs with heq
    · exact h.release hpc heq
    have hknows := h.knows t
    unfold Knows at hknows
    rw [hpc] at hknows
    cases side <;> exact h.move hpc hknows (fun _ => rfl) rfl
  | wakeSection =>
    dsimp only
    split_ifs
    · exact h.addWake hpc .writer
    · exact h.addWake hpc .reader
    · exact h.move hpc trivial (fun _ => rfl) rfl

theorem lockCall (hrest : (w.thread t).pc.AtRest) (side : Side) :
    LockConsistent ids (w.goto t (.tryLock side false)) := by
  obtain ⟨error, hpc⟩ := hrest
  exact h.move hpc trivial (fun _ => rfl) rfl

theorem unlockCall (hrest : (w.thread t).pc.AtRest)
    (hholds : 0 < (w.thread t).reading ∨ (w.thread t).writing = true) :
    LockConsistent ids (w.goto t .unlock) := by
  obtain ⟨error, hpc⟩ := hrest
  exact h.move hpc hholds (fun _ => rfl) rfl

theorem wakeDone (hpc : (w.thread t).pc = .wake side) :
    LockConsistent ids (w.goto t (.rest none)) :=
  h.move hpc trivial (fun _ => rfl) rfl

theorem wokenUp (hpc : (w.thread u).pc = .asleep side serial) :
    LockConsistent ids (w.goto u (.deregister side)) := h.move hpc trivial (fun _ => rfl) rfl

omit h [Fintype T] [DecidableEq T] in
theorem wakeReader_cases (th : Thread) :
    (∃ serial, th.pc = .asleep .reader serial ∧ wakeReader th = th.goto (.deregister .reader)) ∨
      ((∀ serial, th.pc ≠ .asleep .reader serial) ∧ wakeReader th = th) := by
  unfold wakeReader
  split
  · rename_i serial hpc
    exact Or.inl ⟨serial, hpc, rfl⟩
  · rename_i hpc
    exact Or.inr ⟨hpc, rfl⟩

omit [DecidableEq T] in
theorem wakeReaders : LockConsistent ids { w with thread := fun u => wakeReader (w.thread u) } := by
  have hsame : ∀ u, (wakeReader (w.thread u)).reading = (w.thread u).reading ∧
      (wakeReader (w.thread u)).writing = (w.thread u).writing ∧
      (∀ s, (wakeReader (w.thread u)).pc.isRegistered s = (w.thread u).pc.isRegistered s) ∧
      (wakeReader (w.thread u)).owns = (w.thread u).owns ∧ Knows w.lock (wakeReader (w.thread u)) :=
        fun u => by
    rcases wakeReader_cases (w.thread u) with ⟨serial, hpc, heq⟩ | ⟨-, heq⟩
    · rw [heq]
      refine ⟨rfl, rfl, fun s => by rw [hpc]; rfl, ?_, trivial⟩
      unfold Thread.owns
      rw [hpc]
      rfl
    · rw [heq]
      exact ⟨rfl, rfl, fun _ => rfl, rfl, h.knows u⟩
  have hr : World.readers { w with thread := fun u => wakeReader (w.thread u) } = w.readers :=
    sum_congr rfl fun u _ => (hsame u).1
  have hw : World.writers { w with thread := fun u => wakeReader (w.thread u) } = w.writers :=
    sum_congr rfl fun u _ => by rw [(hsame u).2.1]
  refine ⟨?_, ?_, ?_, fun side => ?_, fun u => ?_, fun u => (hsame u).2.2.2.2⟩
  · rw [hr, hw]
    exact h.state
  · rw [hr]
    exact h.readers_lt
  · rw [hr, hw]
    exact h.exclusive
  · exact (h.count side).trans (sum_congr rfl fun u _ => by rw [(hsame u).2.2.1])
  · rw [(hsame u).2.2.2.1]
    exact h.tid u

theorem step (hstep : Step ids w t w') : LockConsistent ids w' := by
  cases hstep with
  | lock side hrest => exact h.lockCall hrest side
  | unlock hrest hholds => exact h.unlockCall hrest hholds
  | run hrun => exact h.run
  | wakeOne u serial hpc hpc' =>
    have hne : u ≠ t := by
      intro hut
      rw [hut, hpc] at hpc'
      cases hpc'
    have hasleep : ((w.goto t (.rest none)).thread u).pc = .asleep .writer serial := by
      rw [World.goto, World.set_thread_of_ne _ _ hne]
      exact hpc'
    exact (h.wakeDone hpc).wokenUp hasleep
  | wakeNone hpc hnone => exact h.wakeDone hpc
  | wakeAll hpc =>
    have hpc' : (wakeReader (w.thread t)).pc = .wake .reader := by
      rcases wakeReader_cases (w.thread t) with ⟨serial, hasleep, -⟩ | ⟨-, heq⟩
      · rw [hpc] at hasleep
        cases hasleep
      · rw [heq]
        exact hpc
    exact h.wakeReaders.wakeDone hpc'

end LockConsistent

/-! ## Wakes -/

/-- A writer that is going to try again. -/
def Seeking (lock : Rwlock) : Pc → Prop
  | .tryLock .writer _ | .casLock .writer _ _ | .checkTid .writer | .readState .writer | .register .writer
  | .deregister .writer => True
  | .wait .writer serial => serial < (lock.pending .writer).wakeWord
  | _ => False

namespace World

omit [Fintype T]

/-- An unlock is about to increase a wake word. -/
def Waking (w : World T) : Prop := ∃ u, (w.thread u).pc = .wakeSection

/-- A thread is going to take the lock, or to wake one that is: an unlock, or a writer. -/
def Active (w : World T) : Prop :=
  w.Waking ∨ (∃ u, Seeking w.lock (w.thread u).pc) ∨
    (∃ u, (w.thread u).pc = .wake .writer) ∧ ∃ u serial, (w.thread u).pc = .asleep .writer serial

/-- What a thread that waits at a free lock can rely on. -/
def ServedAt (w : World T) : Pc → Prop
  | .wait .writer serial => serial = (w.lock.pending .writer).wakeWord → w.Waking
  | .asleep .writer serial => w.Active ∧ (serial = (w.lock.pending .writer).wakeWord → w.Waking)
  | .wait .reader serial => serial = (w.lock.pending .reader).wakeWord → w.Active
  | .asleep .reader serial =>
    w.Active ∨ serial < (w.lock.pending .reader).wakeWord ∧ ∃ u, (w.thread u).pc = .wake .reader
  | _ => True

/-- The lock is held by no thread. -/
def Free (w : World T) : Prop := canAcquire .writer w.lock.state = true

def Served (w : World T) : Prop := w.Free → ∀ t, w.ServedAt (w.thread t).pc

/-- No wake word has come round since a thread that is about to wait read it. -/
def InTime (w : World T) : Prop :=
  ∀ t side serial, (w.thread t).pc = .wait side serial →
    (w.lock.pending side).wakeWord < serial + 2 ^ 32

end World

section Served

variable [DecidableEq T]

omit [Fintype T] [DecidableEq T] in
theorem servedAt_of_waking (hwaking : w.Waking) (pc : Pc) : w.ServedAt pc := by
  match pc with
  | .wait .writer _ => exact fun _ => hwaking
  | .asleep .writer _ => exact ⟨Or.inl hwaking, fun _ => hwaking⟩
  | .wait .reader _ => exact fun _ => Or.inl hwaking
  | .asleep .reader _ => exact Or.inl (Or.inl hwaking)
  | .rest _ | .tryLock _ _ | .casLock _ _ _ | .setTid | .checkTid _ | .readState _ | .register
    _ | .deregister _ | .unlock
  | .averTid | .clearTid | .readRelease _ | .casRelease _ _ | .wakeSection | .wake _ => trivial

variable {pc : Pc}

omit [Fintype T] [DecidableEq T] in
theorem servedAt_of_not_registered (hpc : ∀ side, pc.isRegistered side = false) :
    w.ServedAt pc := by
  match pc with
  | .wait side _ | .asleep side _ => exact absurd (hpc side) (by simp [Pc.isRegistered])
  | .rest _ | .tryLock _ _ | .casLock _ _ _ | .setTid | .checkTid _ | .readState _ | .register
    _ | .deregister _ | .unlock
  | .averTid | .clearTid | .readRelease _ | .casRelease _ _ | .wakeSection | .wake _ => trivial

omit [Fintype T] [DecidableEq T] in
theorem ServedAt.mono (h : w.ServedAt pc)
    (hwake : ∀ side, (w'.lock.pending side).wakeWord = (w.lock.pending side).wakeWord)
    (hwaking : w.Waking → w'.Waking) (hactive : w.Active → w'.Active)
    (hreader : (∃ u, (w.thread u).pc = .wake .reader) → ∃ u, (w'.thread u).pc = .wake .reader) :
    w'.ServedAt pc := by
  match pc with
  | .wait .writer serial =>
    intro heq
    rw [hwake] at heq
    exact hwaking (h heq)
  | .asleep .writer serial =>
    refine ⟨hactive h.1, fun heq => ?_⟩
    rw [hwake] at heq
    exact hwaking (h.2 heq)
  | .wait .reader serial =>
    intro heq
    rw [hwake] at heq
    exact hactive (h heq)
  | .asleep .reader serial =>
    rcases h with h | ⟨hlt, hex⟩
    · exact Or.inl (hactive h)
    · refine Or.inr ⟨?_, hreader hex⟩
      rw [hwake]
      exact hlt
  | .rest _ | .tryLock _ _ | .casLock _ _ _ | .setTid | .checkTid _ | .readState _ | .register
    _ | .deregister _ | .unlock
  | .averTid | .clearTid | .readRelease _ | .casRelease _ _ | .wakeSection | .wake _ => trivial

omit [Fintype T] [DecidableEq T] in
theorem Seeking.congr {lock' : Rwlock} (h : Seeking lock pc)
    (hwake : ∀ side, (lock.pending side).wakeWord ≤ (lock'.pending side).wakeWord) :
    Seeking lock' pc := by
  match pc, h with
  | .wait .writer _, h => exact Nat.lt_of_lt_of_le h (hwake .writer)
  | .tryLock .writer _, _ | .casLock .writer _ _, _ | .checkTid .writer, _ | .readState .writer,
    _ | .register .writer, _
  | .deregister .writer, _ => trivial

omit [DecidableEq T] in
theorem active_of_registered (h : w.Served) (hfree : w.Free) (hc : LockConsistent ids w)
    (hpos : 0 < w.registered .writer) : w.Active := by
  obtain ⟨u, hu⟩ := exists_registered hpos
  have hserved := h hfree u
  have hknows := hc.knows u
  unfold Knows at hknows
  generalize hpc : (w.thread u).pc = pc at hu hserved hknows
  match pc, hu with
  | .wait .writer serial, _ =>
    rcases Nat.lt_or_eq_of_le hknows with hlt | heq
    · refine Or.inr (Or.inl ⟨u, ?_⟩)
      rw [hpc]
      exact hlt
    · exact Or.inl (hserved heq)
  | .asleep .writer serial, _ => exact hserved.1
  | .deregister .writer, _ =>
    refine Or.inr (Or.inl ⟨u, ?_⟩)
    rw [hpc]
    trivial

/-- The place of a thread that is neither asleep nor about to wake others. -/
def Pc.Quiet : Pc → Prop
  | .wakeSection | .wake _ | .asleep _ _ => False
  | _ => True

omit [Fintype T] in
theorem World.Served.keep (hpc : (w.thread t).pc = pc) (hquiet : pc.Quiet) (h : w.Served)
    (hfree : w'.Free → w.Free) (hothers : ∀ u, u ≠ t → w'.thread u = w.thread u)
    (hwake : ∀ side, (w'.lock.pending side).wakeWord = (w.lock.pending side).wakeWord)
    (hseek : w.Free → Seeking w.lock pc → Seeking w'.lock (w'.thread t).pc)
    (hown : w.Free → (w.Waking → w'.Waking) → (w.Active → w'.Active) →
      w'.ServedAt (w'.thread t).pc) : w'.Served := by
  subst hpc
  have hstays : ∀ pc, ¬ pc.Quiet → (∃ u, (w.thread u).pc = pc) → ∃ u, (w'.thread u).pc = pc := by
    intro pc hne hex
    obtain ⟨u, rfl⟩ := hex
    refine ⟨u, ?_⟩
    rw [hothers u fun heq => hne (heq ▸ hquiet)]
  have hwaking : w.Waking → w'.Waking := hstays _ id
  have hactive : w.Free → w.Active → w'.Active := by
    intro hfree hactive
    rcases hactive with hwaking' | ⟨u, hu⟩ | ⟨hw, u, serial, hu⟩
    · exact Or.inl (hwaking hwaking')
    · refine Or.inr (Or.inl ⟨u, ?_⟩)
      by_cases hut : u = t
      · rw [hut] at hu ⊢
        exact hseek hfree hu
      · rw [hothers u hut]
        exact hu.congr fun side => Nat.le_of_eq (hwake side).symm
    · exact Or.inr (Or.inr ⟨hstays _ id hw, exists_comm.1 ⟨serial, hstays _ id ⟨u, hu⟩⟩⟩)
  intro hfree' u
  by_cases hut : u = t
  · rw [hut]
    exact hown (hfree hfree') hwaking (hactive (hfree hfree'))
  · rw [hothers u hut]
    exact ServedAt.mono (h (hfree hfree') u) hwake hwaking (hactive (hfree hfree')) (hstays _ id)

omit [Fintype T] in
theorem World.Served.keep_goto (hpc : (w.thread t).pc = pc) (hquiet : pc.Quiet) (h : w.Served)
    (hseek : Seeking w.lock pc → Seeking w.lock pc') (hpc' : ∀ w : World T, w.ServedAt pc') :
    (w.goto t pc').Served := by
  refine h.keep hpc hquiet id (fun u hu => World.set_thread_of_ne _ _ hu) (fun _ =>
    rfl) ?_ fun _ _ _ => ?_
  · rw [World.goto, World.set_thread_self]
    exact fun _ => hseek
  · rw [World.goto, World.set_thread_self]
    exact hpc' _

omit [DecidableEq T] in
theorem served_of_holding (hc : LockConsistent ids w)
    (hholds : 0 < (w.thread t).reading ∨ (w.thread t).writing = true) : w.Served := by
  intro hfree
  obtain ⟨hwriters, hreaders⟩ := hc.canAcquire_writer.1 hfree
  rcases hholds with hreading | hwriting
  · have := le_readers w t
    omega
  · have := writers_pos hwriting
    omega

omit [Fintype T] [DecidableEq T] in
theorem servedAt_attempt (side : Side) (slow : Bool) (old : ℤ) (w : World T) :
    w.ServedAt (attempt side slow old) := by
  unfold attempt
  split_ifs <;> trivial

variable {side : Side}

theorem seeking_attempt {slow : Bool} (hside : side = .writer) :
    Seeking lock (attempt side slow old) := by
  subst hside
  unfold attempt
  split_ifs with hcan hoverflow
  · exact absurd hoverflow.1 (by decide)
  · trivial
  · trivial
  · trivial

variable (hc : LockConsistent ids w)
include hc

theorem free_of_section
    (hc' : LockConsistent ids ({ w with lock := lock }.set t ((w.thread t).goto pc)))
    (hfree : ({ w with lock := lock }.set t ((w.thread t).goto pc)).Free) : w.Free := by
  obtain ⟨hw, hr⟩ := hc'.canAcquire_writer.1 hfree
  refine hc.canAcquire_writer.2 ⟨?_, ?_⟩
  · exact (Nat.add_right_cancel (writers_set w t ((w.thread t).goto pc))).symm.trans hw
  · exact (Nat.add_right_cancel (readers_set w t ((w.thread t).goto pc))).symm.trans hr

variable (h : w.Served)
include h

theorem served_register (hpc : (w.thread t).pc = .register side)
    (hc' : LockConsistent ids ({ w with lock := w.lock.register side }.set t ((w.thread t).goto
      (if canAcquire side w.lock.state then .deregister side else .wait side
        (w.lock.pending side).wakeWord)))) :
    ({ w with lock := w.lock.register side }.set t ((w.thread t).goto
      (if canAcquire side w.lock.state then .deregister side else .wait side
        (w.lock.pending side).wakeWord))).Served := by
  refine h.keep hpc trivial (free_of_section hc hc') (fun u hu => World.set_thread_of_ne _ _ hu)
    (wakeWord_register side) (fun hfree hseek => ?_) fun hfree hwaking hactive => ?_
  · rw [World.set_thread_self]
    cases side with
    | reader =>
      cases hseek
    | writer =>
      rw [if_pos (show canAcquire .writer w.lock.state = true from hfree)]
      trivial
  · rw [World.set_thread_self]
    by_cases hcan : canAcquire side w.lock.state = true
    · rw [if_pos hcan]
      trivial
    rw [if_neg hcan] at hactive ⊢
    cases side with
    | writer => exact absurd hfree hcan
    | reader =>
      -- The lock is free, so a writer is pending.
      intro _
      refine hactive (active_of_registered h hfree hc (Nat.pos_of_ne_zero fun hzero => hcan ?_))
      exact hc.canAcquire_reader.2 ⟨(hc.canAcquire_writer.1 hfree).1, hzero⟩

/-- A thread that falls asleep has read the wake word as it is, since the word has not come round.
-/
theorem served_wait (htime : w.InTime) (hpc : (w.thread t).pc = .wait side serial) :
    (w.goto t (if word (w.lock.pending side).wakeWord = word serial then .asleep side serial
      else .deregister side)).Served := by
  have hle : serial ≤ (w.lock.pending side).wakeWord := hc.knowsAt hpc
  have hlt := htime t side serial hpc
  have heq : word (w.lock.pending side).wakeWord = word serial →
      serial = (w.lock.pending side).wakeWord := by
    unfold word
    omega
  refine h.keep hpc trivial id (fun u hu => World.set_thread_of_ne _ _ hu) (fun _ => rfl)
    (fun _ hseek => ?_) fun hfree hwaking hactive => ?_
  · rw [World.goto, World.set_thread_self]
    cases side with
    | reader =>
      cases hseek
    | writer =>
      rw [if_neg fun hword => Nat.lt_irrefl serial (Nat.lt_of_lt_of_eq hseek (heq hword).symm)]
      trivial
  · rw [World.goto, World.set_thread_self]
    by_cases hword : word (w.lock.pending side).wakeWord = word serial
    · have hserved := h hfree t
      rw [hpc] at hserved
      rw [if_pos hword] at hwaking hactive ⊢
      cases side with
      | writer => exact ⟨Or.inl (hwaking (hserved (heq hword))),
        fun _ => hwaking (hserved (heq hword))⟩
      | reader => exact Or.inl (hactive (hserved (heq hword)))
    · rw [if_neg hword]
      cases side <;> trivial

omit h in
theorem served_release (hpc : (w.thread t).pc = .casRelease side old) (heq : w.lock.state = old) :
    ({ w with lock := { w.lock with state := released side old } }.set t
      ((w.thread t).release (afterRelease side old) side)).Served := by
  have hc' := hc.release hpc heq
  rw [← heq] at hc' ⊢
  intro hfree
  obtain ⟨hwriters, hreaders⟩ := hc'.canAcquire_writer.1 hfree
  have hpc' : ((w.thread t).release (afterRelease side w.lock.state) side).pc =
      afterRelease side w.lock.state := by
    cases side <;> rfl
  have hlast : ¬ (side = .reader ∧ ash 2 readerCountShift ≤ w.lock.state) := by
    intro hlast
    obtain ⟨rfl, hle⟩ := hlast
    have hreads : 0 < (w.thread t).reading := hc.knowsAt hpc
    rw [hc.state, two_readers_le_encode _ _ hc.readers_lt] at hle
    have hr := readers_set w t ((w.thread t).release (afterRelease .reader w.lock.state) .reader)
    rw [show (w.set t ((w.thread t).release (afterRelease .reader w.lock.state) .reader)).readers =
      0 from hreaders,
      show ((w.thread t).release (afterRelease .reader w.lock.state) .reader).reading =
        (w.thread t).reading - 1 from rfl]
      at hr
    rcases hc.exclusive with h0 | ⟨h1, h0⟩
    · omega
    · have := le_readers w t
      omega
  by_cases hflags : logand w.lock.state 3 = 0
  · -- No thread is counted as pending.
    rw [hc.state, logand_flags_encode, hc.count, hc.count] at hflags
    simp only [decide_eq_false_iff_not, Nat.not_lt, Nat.le_zero] at hflags
    intro u
    refine servedAt_of_not_registered fun s => ?_
    by_contra hreg
    have hpos := registered_pos (Bool.eq_true_of_not_eq_false hreg)
    have hsum := registered_set w t ((w.thread t).release (afterRelease side w.lock.state) side) s
    rw [hpc', hpc, show (Pc.casRelease side old).isRegistered s = false from rfl] at hsum
    have hafter : (afterRelease side w.lock.state).isRegistered s = false := by
      unfold afterRelease
      split_ifs <;> rfl
    rw [hafter] at hsum
    have hzero : w.registered s = 0 := by
      cases s
      · exact hflags.2
      · exact hflags.1
    have heq' := Nat.add_right_cancel hsum
    rw [hzero] at heq'
    exact absurd (heq' ▸ hpos) (Nat.lt_irrefl 0)
  · intro u
    refine servedAt_of_waking ⟨t, ?_⟩ _
    rw [World.set_thread_self, hpc']
    unfold afterRelease
    rw [if_neg hlast, if_pos hflags]

omit hc h [Fintype T] in
theorem set_pc_of_ne (hu : u ≠ t) : ((w.goto t pc).thread u).pc = (w.thread u).pc := by
  rw [World.goto, World.set_thread_of_ne _ _ hu]

omit hc h [Fintype T] in
theorem set_pc_self : ((w.goto t pc).thread t).pc = pc := by
  rw [World.goto, World.set_thread_self]
  rfl

omit h in
/-- The section of an unlock that finds a pending writer leaves a writer that goes on, or one that
is asleep and is about to be woken. -/
theorem served_wakeWriter (hpc : (w.thread t).pc = .wakeSection)
    (hcount : 0 < (w.lock.pending .writer).count) :
    ({ w with lock := w.lock.addWake .writer }.set t
      ((w.thread t).goto (.wake .writer))).Served := by
  have hpc' : ∀ u, u ≠ t → (({ w with lock := w.lock.addWake .writer }.set t
      ((w.thread t).goto (.wake .writer))).thread u).pc = (w.thread u).pc := fun u hu => by
    rw [World.set_thread_of_ne _ _ hu]
  have hwake : ((w.lock.addWake .writer).pending .writer).wakeWord =
      (w.lock.pending .writer).wakeWord + 1 :=
    wakeWord_addWake .writer .writer
  have hactive :
      ({ w with lock := w.lock.addWake .writer }.set t
        ((w.thread t).goto (.wake .writer))).Active := by
    rw [hc.count] at hcount
    obtain ⟨u, hu⟩ := exists_registered hcount
    have hut : u ≠ t := by
      intro heq
      rw [heq, hpc] at hu
      cases hu
    have hknows := hc.knows u
    unfold Knows at hknows
    generalize hpcu : (w.thread u).pc = pc at hu hknows
    match pc, hu with
    | .wait .writer serial, _ =>
      refine Or.inr (Or.inl ⟨u, ?_⟩)
      rw [hpc' u hut, hpcu]
      exact Nat.lt_of_lt_of_eq (Nat.lt_succ_of_le hknows) hwake.symm
    | .asleep .writer serial, _ =>
      refine Or.inr (Or.inr ⟨⟨t, ?_⟩, u, serial, ?_⟩)
      · rw [World.set_thread_self]
        rfl
      · rw [hpc' u hut, hpcu]
    | .deregister .writer, _ =>
      refine Or.inr (Or.inl ⟨u, ?_⟩)
      rw [hpc' u hut, hpcu]
      trivial
  intro _ u
  by_cases hut : u = t
  · rw [hut, World.set_thread_self]
    trivial
  rw [hpc' u hut]
  have hknows := hc.knows u
  unfold Knows at hknows
  have hold : ∀ serial ≤ (w.lock.pending .writer).wakeWord,
      serial ≠ ((w.lock.addWake .writer).pending .writer).wakeWord := fun serial hle => by
    rw [hwake]
    omega
  generalize (w.thread u).pc = pc at hknows
  match pc, hknows with
  | .wait .writer serial, hknows => exact fun heq => absurd heq (hold serial hknows)
  | .asleep .writer serial, hknows => exact ⟨hactive, fun heq => absurd heq (hold serial hknows)⟩
  | .wait .reader serial, _ => exact fun _ => hactive
  | .asleep .reader serial, _ => exact Or.inl hactive
  | .rest _, _ | .tryLock _ _, _ | .casLock _ _ _, _ | .setTid, _ | .checkTid _, _ | .readState _,
    _ | .register _, _
  | .deregister _, _ | .unlock, _ | .averTid, _ | .clearTid, _ | .readRelease _,
    _ | .casRelease _ _, _ | .wakeSection, _
  | .wake _, _ => trivial

omit h in
theorem served_wakeReaders (hnone : ¬ 0 < (w.lock.pending .writer).count) :
    ({ w with lock := w.lock.addWake .reader }.set t
      ((w.thread t).goto (.wake .reader))).Served := by
  have hwake : ((w.lock.addWake .reader).pending .reader).wakeWord =
      (w.lock.pending .reader).wakeWord + 1 :=
    wakeWord_addWake .reader .reader
  have hwriters : w.registered .writer = 0 := by
    rw [hc.count] at hnone
    omega
  intro _ u
  by_cases hut : u = t
  · rw [hut, World.set_thread_self]
    trivial
  rw [World.set_thread_of_ne _ _ hut]
  have hknows := hc.knows u
  unfold Knows at hknows
  have hnot : (w.thread u).pc.isRegistered .writer ≠ true := fun hreg => by
    have := registered_pos hreg
    omega
  generalize (w.thread u).pc = pc at hknows hnot
  match pc, hknows with
  | .wait .writer serial, _ | .asleep .writer serial, _ => exact absurd rfl hnot
  | .wait .reader serial, hknows =>
    intro heq
    rw [World.set_lock, hwake] at heq
    omega
  | .asleep .reader serial, hknows =>
    refine Or.inr ⟨?_, t, ?_⟩
    · exact Nat.lt_of_lt_of_eq (Nat.lt_succ_of_le hknows) hwake.symm
    · rw [World.set_thread_self]
      rfl
  | .rest _, _ | .tryLock _ _, _ | .casLock _ _ _, _ | .setTid, _ | .checkTid _, _ | .readState _,
    _ | .register _, _
  | .deregister _, _ | .unlock, _ | .averTid, _ | .clearTid, _ | .readRelease _,
    _ | .casRelease _ _, _ | .wakeSection, _
  | .wake _, _ => trivial

omit h in
theorem served_wakeNothing (hwriter : ¬ 0 < (w.lock.pending .writer).count)
    (hreader : ¬ 0 < (w.lock.pending .reader).count) : (w.goto t (.rest none)).Served := by
  intro _ u
  by_cases hut : u = t
  · rw [hut, set_pc_self]
    trivial
  rw [set_pc_of_ne hut]
  refine servedAt_of_not_registered fun s => ?_
  by_contra hreg
  have hpos := registered_pos (Bool.eq_true_of_not_eq_false hreg)
  rw [← hc.count s] at hpos
  cases s
  · exact hreader hpos
  · exact hwriter hpos

omit hc [Fintype T] in
theorem served_wakeOne (hpc : (w.thread t).pc = .wake .writer)
    (hpc' : (w.thread u).pc = .asleep .writer serial) :
    ((w.goto t (.rest none)).goto u (.deregister .writer)).Served := by
  have hactive : ((w.goto t (.rest none)).goto u (.deregister .writer)).Active := by
    refine Or.inr (Or.inl ⟨u, ?_⟩)
    rw [set_pc_self]
    trivial
  have hstays : ∀ pc, pc ≠ .wake .writer → pc ≠ .asleep .writer serial →
    (∃ v, (w.thread v).pc = pc) →
      ∃ v, (((w.goto t (.rest none)).goto u (.deregister .writer)).thread v).pc = pc := by
    intro pc hne hne' hex
    obtain ⟨v, hv⟩ := hex
    refine ⟨v, ?_⟩
    rw [set_pc_of_ne fun heq => hne' (by rw [← hv, heq, hpc']),
      set_pc_of_ne fun heq => hne (by rw [← hv, heq, hpc])]
    exact hv
  intro hfree v
  by_cases hvu : v = u
  · rw [hvu, set_pc_self]
    trivial
  rw [set_pc_of_ne hvu]
  by_cases hvt : v = t
  · rw [hvt, set_pc_self]
    trivial
  · rw [set_pc_of_ne hvt]
    exact ServedAt.mono (h hfree v) (fun _ => rfl) (hstays _ (by simp) (by simp)) (fun _ => hactive)
      (hstays _ (by simp) (by simp))

omit hc [Fintype T] in
theorem served_wakeNone (hpc : (w.thread t).pc = .wake .writer)
    (hnone : ∀ u serial, (w.thread u).pc ≠ .asleep .writer serial) :
    (w.goto t (.rest none)).Served := by
  have hstays : ∀ pc, pc ≠ .wake .writer → (∃ v, (w.thread v).pc = pc) →
      ∃ v, ((w.goto t (.rest none)).thread v).pc = pc := by
    intro pc hne hex
    obtain ⟨v, hv⟩ := hex
    refine ⟨v, ?_⟩
    rw [set_pc_of_ne fun heq => hne (by rw [← hv, heq, hpc])]
    exact hv
  have hactive : w.Active → (w.goto t (.rest none)).Active := by
    intro hactive
    rcases hactive with hwaking | ⟨v, hv⟩ | ⟨-, v, serial, hv⟩
    · exact Or.inl (hstays _ (by simp) hwaking)
    · refine Or.inr (Or.inl ⟨v, ?_⟩)
      have hvt : v ≠ t := by
        intro heq
        rw [heq, hpc] at hv
        cases hv
      rw [set_pc_of_ne hvt]
      exact hv
    · exact absurd hv (hnone v serial)
  intro hfree v
  by_cases hvt : v = t
  · rw [hvt, set_pc_self]
    trivial
  · rw [set_pc_of_ne hvt]
    exact ServedAt.mono (h hfree v) (fun _ => rfl) (hstays _ (by simp)) hactive (hstays _ (by simp))

omit hc [Fintype T] in
theorem served_wakeAll (hpc : (w.thread t).pc = .wake .reader) :
    ({ w with thread := fun u => wakeReader (w.thread u) }.goto t (.rest none)).Served := by
  have hpcs : ∀ v, v ≠ t → (∀ serial, (w.thread v).pc ≠ .asleep .reader serial) →
      (({ w with thread := fun u => wakeReader (w.thread u) }.goto t (.rest none)).thread v).pc =
        (w.thread v).pc := by
    intro v hvt hv
    rw [set_pc_of_ne hvt]
    rcases LockConsistent.wakeReader_cases (w.thread v) with ⟨serial, hpcv, -⟩ | ⟨-, heq⟩
    · exact absurd hpcv (hv serial)
    · exact congrArg Thread.pc heq
  have hstays : ∀ pc, pc ≠ .wake .reader → (∀ serial, pc ≠ .asleep .reader serial) →
    (∃ v, (w.thread v).pc = pc) →
      ∃ v, (({ w with thread := fun u => wakeReader (w.thread u) }.goto t (.rest none)).thread
        v).pc = pc := by
    intro pc hne hne' hex
    obtain ⟨v, hv⟩ := hex
    refine ⟨v, ?_⟩
    rw [hpcs v (fun heq => hne (by rw [← hv, heq, hpc]))
      fun serial => by rw [hv]; exact hne' serial]
    exact hv
  have hwaking : w.Waking →
      ({ w with thread := fun u => wakeReader (w.thread u) }.goto t (.rest none)).Waking :=
    hstays _ (by simp) (by simp)
  have hactive : w.Active →
      ({ w with thread := fun u => wakeReader (w.thread u) }.goto t (.rest none)).Active := by
    intro hactive
    rcases hactive with h1 | ⟨v, hv⟩ | ⟨h1, v, serial, hv⟩
    · exact Or.inl (hwaking h1)
    · refine Or.inr (Or.inl ⟨v, ?_⟩)
      rw [hpcs v]
      · exact hv
      · intro heq
        rw [heq, hpc] at hv
        cases hv
      · intro serial heq
        rw [heq] at hv
        cases hv
    · exact Or.inr (Or.inr ⟨hstays _ (by simp) (by simp) h1,
        hstays (.asleep .writer serial) (by simp) (by simp) ⟨v, hv⟩
        |>.imp fun v hv => ⟨serial, hv⟩⟩)
  intro hfree v
  by_cases hvt : v = t
  · rw [hvt, set_pc_self]
    trivial
  rw [set_pc_of_ne hvt]
  rcases LockConsistent.wakeReader_cases (w.thread v) with ⟨serial, -, heq⟩ | ⟨hv, heq⟩
  · show World.ServedAt _ (wakeReader (w.thread v)).pc
    rw [heq]
    trivial
  show World.ServedAt _ (wakeReader (w.thread v)).pc
  rw [heq]
  have hserved := h hfree v
  generalize (w.thread v).pc = pc at hserved hv
  match pc, hserved with
  | .wait .writer serial, hserved => exact fun heq => hwaking (hserved heq)
  | .asleep .writer serial, hserved => exact ⟨hactive hserved.1, fun heq => hwaking (hserved.2 heq)⟩
  | .wait .reader serial, hserved => exact fun heq => hactive (hserved heq)
  | .asleep .reader serial, _ => exact absurd rfl (hv serial)
  | .rest _, _ | .tryLock _ _, _ | .casLock _ _ _, _ | .setTid, _ | .checkTid _, _ | .readState _,
    _ | .register _, _
  | .deregister _, _ | .unlock, _ | .averTid, _ | .clearTid, _ | .readRelease _,
    _ | .casRelease _ _, _
  | .wakeSection, _ | .wake _, _ => trivial

theorem World.Served.run (htime : w.InTime) :
    ({ w with lock := (threadStep (ids.tid t) w.lock (w.thread t)).1 }.set t
      (threadStep (ids.tid t) w.lock (w.thread t)).2).Served := by
  have hc' := hc.run (t := t)
  unfold threadStep at hc' ⊢
  cases hpc : (w.thread t).pc with
  | rest _ | asleep _ _ | wake _ =>
    rw [show ({ w with lock := w.lock } : World T).set t (w.thread t) = w by simp [World.set]]
    exact h
  | tryLock side slow =>
    refine h.keep_goto hpc trivial (fun hseek => ?_) (servedAt_attempt _ _ _)
    cases side with
    | reader => cases hseek
    | writer => exact seeking_attempt rfl
  | casLock side slow old =>
    rw [hpc] at hc'
    dsimp only at hc' ⊢
    split_ifs at hc' ⊢ with heq
    · refine served_of_holding (t := t) hc' ?_
      rw [World.set_thread_self]
      cases side with
      | reader => exact Or.inl (Nat.succ_pos _)
      | writer => exact Or.inr rfl
    · refine h.keep_goto hpc trivial (fun hseek => ?_) (servedAt_attempt _ _ _)
      cases side with
      | reader => cases hseek
      | writer => exact seeking_attempt rfl
  | setTid =>
    rw [hpc] at hc'
    refine served_of_holding (t := t) hc' (Or.inr ?_)
    rw [World.set_thread_self]
    exact hc.knowsAt hpc
  | checkTid side =>
    rw [hpc] at hc'
    dsimp only at hc' ⊢
    split_ifs at hc' ⊢ with htid
    · refine served_of_holding (t := t) hc' (Or.inr ?_)
      rw [World.set_thread_self]
      exact (Bool.and_eq_true_iff.1 ((hc.tid t).1 htid)).1
    refine h.keep_goto hpc trivial (fun hseek => ?_) fun _ => trivial
    cases side with
    | reader => cases hseek
    | writer => trivial
  | readState side =>
    dsimp only
    split_ifs
    all_goals
      refine h.keep_goto hpc trivial (fun hseek => ?_) fun _ => trivial
      cases side with
      | reader => cases hseek
      | writer => trivial
  | register side =>
    rw [hpc] at hc'
    exact served_register hc h hpc hc'
  | wait side serial => exact served_wait hc h htime hpc
  | deregister side =>
    rw [hpc] at hc'
    refine h.keep hpc trivial (free_of_section hc hc') (fun u hu => World.set_thread_of_ne _ _ hu)
      (wakeWord_deregister side) (fun _ hseek => ?_) fun _ _ _ => ?_
    · rw [World.set_thread_self]
      cases side with
      | reader => cases hseek
      | writer => trivial
    · rw [World.set_thread_self]
      trivial
  | unlock | averTid =>
    dsimp only
    split_ifs
    all_goals
      exact h.keep_goto hpc trivial False.elim fun _ => trivial
  | clearTid =>
    rw [hpc] at hc'
    refine served_of_holding (t := t) hc' (Or.inr ?_)
    rw [World.set_thread_self]
    exact hc.knowsAt hpc
  | readRelease side =>
    exact h.keep_goto hpc trivial False.elim fun _ => trivial
  | casRelease side old =>
    dsimp only
    split_ifs with heq
    · exact served_release hc hpc heq
    · exact h.keep_goto hpc trivial False.elim fun _ => trivial
  | wakeSection =>
    dsimp only
    split_ifs with hwriter hreader
    · exact served_wakeWriter hc hpc hwriter
    · exact served_wakeReaders hc hwriter
    · exact served_wakeNothing hc hwriter hreader

theorem World.Served.step (htime : w.InTime) (hstep : Step ids w t w') : w'.Served := by
  cases hstep with
  | lock _ hrest | unlock hrest _ =>
    obtain ⟨error, hpc⟩ := hrest
    exact h.keep_goto hpc trivial False.elim fun _ => trivial
  | run hrun => exact World.Served.run hc h htime
  | wakeOne u serial hpc hpc' => exact served_wakeOne h hpc hpc'
  | wakeNone hpc hnone => exact served_wakeNone h hpc hnone
  | wakeAll hpc => exact served_wakeAll h hpc

end Served

/-! ## Runs -/

section Runs
variable [DecidableEq T]

omit [Fintype T] in
theorem ReachableIn.ok {ok : World T → Prop} (h : ReachableIn ids ok w) : ok w := by
  cases h with
  | initial hok => exact hok
  | step _ _ hok => exact hok

omit [Fintype T] in
theorem ReachableIn.reachable {ok : World T → Prop} (h : ReachableIn ids ok w) :
    Reachable ids w := by
  induction h with
  | initial _ => exact .initial trivial
  | step _ hstep _ ih => exact .step ih hstep trivial

theorem consistent_of_reachable {ok : World T → Prop} (h : ReachableIn ids ok w) :
    LockConsistent ids w := by
  induction h with
  | initial => exact lockConsistent_initial
  | step _ hstep _ ih => exact ih.step hstep

theorem served_of_reachable (h : ReachableIn ids World.InTime w) : w.Served := by
  induction h with
  | initial => exact fun _ _ => trivial
  | step hreach hstep _ ih =>
    exact World.Served.step (consistent_of_reachable hreach) ih hreach.ok hstep

theorem exists_step (ids : ThreadIds T) (hrest : ¬ (w.thread t).pc.AtRest)
    (hasleep : ¬ (w.thread t).pc.Asleep) : ∃ w', Step ids w t w' := by
  cases hpc : (w.thread t).pc with
  | rest error => exact absurd ⟨error, hpc⟩ hrest
  | asleep side serial => exact absurd ⟨side, serial, hpc⟩ hasleep
  | wake side =>
    cases side with
    | reader => exact ⟨_, .wakeAll w t hpc⟩
    | writer =>
      by_cases hex : ∃ u serial, (w.thread u).pc = .asleep .writer serial
      · obtain ⟨u, serial, hu⟩ := hex
        exact ⟨_, .wakeOne w t u serial hpc hu⟩
      · push Not at hex
        exact ⟨_, .wakeNone w t hpc hex⟩
  | _ =>
    refine ⟨_, .run w t ?_⟩
    rw [hpc]
    trivial

/-- The thread is in a call that locks for a side. -/
def Pc.Locks (side : Side) : Pc → Prop
  | .tryLock s _ | .casLock s _ _ | .checkTid s | .readState s | .register s | .wait s _ | .asleep s _ | .deregister s => s = side
  | .setTid => side = .writer
  | _ => False

def Thread.Holds (th : Thread) : Side → Prop
  | .reader => 0 < th.reading
  | .writer => th.writing = true

theorem attempt_ne_rest (side : Side) (slow : Bool) (old : ℤ) :
    attempt side slow old ≠ .rest none := by
  unfold attempt
  split_ifs <;> simp

theorem threadStep_locked {me : ℕ} {lock : Rwlock} {th : Thread} {side : Side}
    (hlocks : th.pc.Locks side) (hknows : Knows lock th)
    (hend : (threadStep me lock th).2.pc = .rest none) : (threadStep me lock th).2.Holds side := by
  obtain ⟨pc, reading, writing⟩ := th
  cases pc with
  | tryLock s slow => exact absurd hend (attempt_ne_rest s slow lock.state)
  | casLock s slow old =>
    obtain rfl : s = side := hlocks
    unfold threadStep at hend ⊢
    dsimp only at hend ⊢
    split_ifs at hend ⊢
    · cases s with
      | reader => exact Nat.succ_pos reading
      | writer => cases hend
    · exact absurd hend (attempt_ne_rest s slow lock.state)
  | setTid =>
    obtain rfl : side = .writer := hlocks
    exact hknows
  | checkTid s | readState s | register s | wait s serial =>
    unfold threadStep Thread.goto at hend
    dsimp only at hend
    split_ifs at hend <;> cases hend
  | deregister s | asleep s serial => cases hend
  | rest | unlock | averTid | clearTid | readRelease | casRelease | wakeSection | wake =>
    exact hlocks.elim

theorem holds_of_step {w' : World T} {side : Side} (hc : LockConsistent ids w)
    (hlocks : (w.thread t).pc.Locks side)
    (hstep : Step ids w t w') (hend : (w'.thread t).pc = .rest none) :
    (w'.thread t).Holds side := by
  cases hstep with
  | lock _ hrest =>
    obtain ⟨error, hpc⟩ := hrest
    rw [hpc] at hlocks
    exact hlocks.elim
  | unlock hrest _ =>
    obtain ⟨error, hpc⟩ := hrest
    rw [hpc] at hlocks
    exact hlocks.elim
  | run _ =>
    rw [World.set_thread_self] at hend ⊢
    exact threadStep_locked hlocks (hc.knows t) hend
  | wakeOne u serial hpc _ | wakeNone hpc _ | wakeAll hpc =>
    rw [hpc] at hlocks
    exact hlocks.elim

/-- Any number of threads in any interleaving of calls and matching unlocks: a lock call that ends
without an error holds the lock, no two threads write, none reads while one writes, the state word
counts the reading holders, and the flag of a side is set while a thread of that side is asleep. In
runs in which no wake word comes round between a thread's reading it and its wait, no thread is
asleep at a free lock unless some thread in a call can take a step. -/
theorem rwlock_run (ids : ThreadIds T) (w : World T) (h : Reachable ids w) :
    (∀ t u, (w.thread t).writing = true → (w.thread u).writing = true → t = u) ∧
      (∀ t u, (w.thread t).writing = true → (w.thread u).reading = 0) ∧
      readerCount w.lock.state = ∑ t, (w.thread t).reading ∧
      (∀ t side w', (w.thread t).pc.Locks side → Step ids w t w' → (w'.thread t).pc = .rest none →
        (w'.thread t).Holds side) ∧
      (∀ t side serial, (w.thread t).pc = .asleep side serial → logand w.lock.state side.flag ≠ 0) ∧
      (ReachableIn ids World.InTime w → w.Free → (∃ t, (w.thread t).pc.Asleep) →
        ∃ u w', ¬ (w.thread u).pc.AtRest ∧ Step ids w u w') := by
  have hc := consistent_of_reachable h
  refine ⟨fun t u => eq_of_writing hc.writers_le, fun t u hwriting => ?_, ?_,
    fun t side w' => holds_of_step hc, fun t side serial hpc => ?_, fun htime hfree hasleep => ?_⟩
  · have hpos := writers_pos hwriting
    have hle := le_readers w u
    rcases hc.exclusive with h0 | ⟨-, h0⟩ <;> omega
  · rw [hc.state, readerCount_encode _ _ hc.readers_lt]
    unfold World.readers
    push_cast
    rfl
  · have hpos : 0 < (w.lock.pending side).count := by
      rw [hc.count]
      exact registered_pos (t := t) (by rw [hpc]; simp [Pc.isRegistered])
    rw [hc.state, logand_flag_encode]
    cases side <;> exact decide_eq_true hpos
  · obtain ⟨t, side, serial, hpc⟩ := hasleep
    have hserved := served_of_reachable htime hfree t
    rw [hpc] at hserved
    have hgo : ∃ u, ¬ (w.thread u).pc.AtRest ∧ ¬ (w.thread u).pc.Asleep := by
      have hactive : w.Active → ∃ u, ¬ (w.thread u).pc.AtRest ∧ ¬ (w.thread u).pc.Asleep := by
        intro hactive
        rcases hactive with ⟨u, hu⟩ | ⟨u, hu⟩ | ⟨⟨u, hu⟩, -⟩
        · refine ⟨u, ?_⟩
          rw [hu]
          exact ⟨(fun ⟨_, h⟩ => nomatch h), (fun ⟨_, _, h⟩ => nomatch h)⟩
        · refine ⟨u, fun hrest => ?_, fun hsleep => ?_⟩
          · obtain ⟨error, heq⟩ := hrest
            rw [heq] at hu
            cases hu
          · obtain ⟨s, serial, heq⟩ := hsleep
            rw [heq] at hu
            cases hu
        · refine ⟨u, ?_⟩
          rw [hu]
          exact ⟨(fun ⟨_, h⟩ => nomatch h), (fun ⟨_, _, h⟩ => nomatch h)⟩
      cases side with
      | writer => exact hactive hserved.1
      | reader =>
        rcases hserved with hact | ⟨-, u, hu⟩
        · exact hactive hact
        · refine ⟨u, ?_⟩
          rw [hu]
          exact ⟨(fun ⟨_, h⟩ => nomatch h), (fun ⟨_, _, h⟩ => nomatch h)⟩
    obtain ⟨u, hrest, hsleep⟩ := hgo
    obtain ⟨w', hstep⟩ := exists_step ids hrest hsleep
    exact ⟨u, w', hrest, hstep⟩

end Runs

/-! ## Two threads -/

section Two

def twoIds : ThreadIds Bool where
  tid b := if b then 2 else 1
  injective := by decide
  pos := by decide
  lt := by decide

def two (lock : Rwlock) (x y : Thread) : World Bool := ⟨lock, fun b => if b then y else x⟩

/-- The lock with one or no pending writer. -/
def writersLock (state : ℤ) (tid wakes count : ℕ) : Rwlock :=
  ⟨state, tid, fun side => match side with | .writer => ⟨wakes, count⟩ | .reader => ⟨0, 0⟩⟩

variable {ok : World Bool → Prop} {lock lock' : Rwlock} {x x' y y' : Thread}

theorem two_set_false : (two lock x y).set false x' = two lock x' y := by
  unfold two World.set
  congr 1
  funext b
  cases b <;> simp

theorem two_set_true : (two lock x y).set true y' = two lock x y' := by
  unfold two World.set
  congr 1
  funext b
  cases b <;> simp

theorem two_run_false (h : ReachableIn twoIds ok (two lock x y)) (hrun : x.pc.Running)
    (hstep : threadStep 1 lock x = (lock', x')) (hok : ok (two lock' x' y)) :
    ReachableIn twoIds ok (two lock' x' y) := by
  have hrun' := @Step.run Bool _ twoIds (two lock x y) false hrun
  rw [show threadStep (twoIds.tid false) (two lock x y).lock ((two lock x y).thread false) =
    (lock', x') from hstep] at hrun'
  exact .step h (two_set_false ▸ hrun') hok

theorem two_run_true (h : ReachableIn twoIds ok (two lock x y)) (hrun : y.pc.Running)
    (hstep : threadStep 2 lock y = (lock', y')) (hok : ok (two lock' x y')) :
    ReachableIn twoIds ok (two lock' x y') := by
  have hrun' := @Step.run Bool _ twoIds (two lock x y) true hrun
  rw [show threadStep (twoIds.tid true) (two lock x y).lock ((two lock x y).thread true) =
    (lock', y') from hstep] at hrun'
  exact .step h (two_set_true ▸ hrun') hok

/-- The first thread holds the lock for write, and the second is about to wait for it. -/
def holding (wakes : ℕ) : World Bool :=
  two (writersLock (2 ^ 31 + 2) 1 wakes 1) ⟨.rest none, 0, true⟩ ⟨.wait .writer 0, 0, false⟩

/-- The lock is free, and the second thread is about to wait for it. -/
def idle (wakes : ℕ) : World Bool :=
  two (writersLock 2 0 wakes 1) ⟨.rest none, 0, false⟩ ⟨.wait .writer 0, 0, false⟩

theorem initial_eq : (World.initial : World Bool) = two (writersLock 0 0 0 0) ⟨.rest none, 0,
    false⟩ ⟨.rest none, 0, false⟩ := by
  unfold World.initial two writersLock Rwlock.make
  congr 1
  · congr 1
    funext side
    cases side <;> rfl
  · funext b
    cases b <;> rfl

theorem two_goto_false (pc : Pc) : (two lock x y).goto false pc = two lock (x.goto pc) y :=
  two_set_false

theorem two_goto_true (pc : Pc) : (two lock x y).goto true pc = two lock x (y.goto pc) :=
  two_set_true

variable {error : Option String}

theorem two_call_false (side : Side) (hx : x.pc = .rest error)
    (h : ReachableIn twoIds ok (two lock x y))
    (hok : ok (two lock (x.goto (.tryLock side false)) y)) :
    ReachableIn twoIds ok (two lock (x.goto (.tryLock side false)) y) := by
  have hcall := @Step.lock Bool _ twoIds (two lock x y) false side ⟨error, hx⟩
  rw [two_goto_false] at hcall
  exact .step h hcall hok

theorem two_call_true (side : Side) (hy : y.pc = .rest error)
    (h : ReachableIn twoIds ok (two lock x y))
    (hok : ok (two lock x (y.goto (.tryLock side false)))) :
    ReachableIn twoIds ok (two lock x (y.goto (.tryLock side false))) := by
  have hcall := @Step.lock Bool _ twoIds (two lock x y) true side ⟨error, hy⟩
  rw [two_goto_true] at hcall
  exact .step h hcall hok

theorem two_unlock_false (hx : x.pc = .rest error) (hwriting : x.writing = true)
    (h : ReachableIn twoIds ok (two lock x y)) (hok : ok (two lock (x.goto .unlock) y)) :
    ReachableIn twoIds ok (two lock (x.goto .unlock) y) := by
  have hcall := @Step.unlock Bool _ twoIds (two lock x y) false ⟨error, hx⟩ (Or.inr hwriting)
  rw [two_goto_false] at hcall
  exact .step h hcall hok

theorem threadStep_to {me : ℕ} {pc : Pc} (h : threadStep me lock x = (lock, x.goto pc))
    (heq : pc = pc') : threadStep me lock x = (lock, x.goto pc') := heq ▸ h

/-- What the states of a run need to satisfy, where only the second thread waits. -/
def Allows (ok : World Bool → Prop) : Prop :=
  ∀ lock x y, (∀ side serial, x.pc ≠ .wait side serial) →
    (∀ side serial, y.pc = .wait side serial → (lock.pending side).wakeWord < serial + 2 ^ 32) →
    ok (two lock x y)

theorem allows_inTime : Allows World.InTime := by
  intro lock x y hx hy t side serial hpc
  cases t with
  | false => exact absurd hpc (hx side serial)
  | true => exact hy side serial hpc

theorem Allows.of_not_wait (hok : Allows ok) (hx : ∀ side serial, x.pc ≠ .wait side serial)
    (hy : ∀ side serial, y.pc ≠ .wait side serial) : ok (two lock x y) :=
  hok lock x y hx fun side serial heq => absurd heq (hy side serial)

/-! ### The steps of a writer -/

section Writer

variable {me tid wakes count reading : ℕ} {state : ℤ} {slow writing : Bool}

theorem writersLock_setPending (wakes' count' : ℕ) :
    (writersLock state tid wakes count).setPending .writer ⟨wakes', count'⟩ =
      writersLock state tid wakes' count' := by
  unfold Rwlock.setPending writersLock
  congr 1
  funext side
  cases side <;> simp

theorem writersLock_register : (writersLock state tid wakes count).register .writer
    = writersLock (logior state 2) tid wakes (count + 1) := by
  have hset := @writersLock_setPending tid wakes count state wakes (count + 1)
  exact congrArg (fun lock : Rwlock => { lock with state := logior state 2 }) hset

theorem writersLock_addWake : (writersLock state tid wakes count).addWake .writer
    = writersLock state tid (wakes + 1) count := writersLock_setPending _ _

theorem threadStep_casLock :
    threadStep me (writersLock state tid wakes count) ⟨.casLock .writer slow state,
      reading, writing⟩
    = (writersLock (acquired .writer state) tid wakes count, ⟨.setTid, reading, true⟩) := by
  exact if_pos rfl

theorem threadStep_register (h : canAcquire .writer state = false) :
    threadStep me (writersLock state tid wakes count) ⟨.register .writer, reading, writing⟩
      = (writersLock (logior state 2) tid wakes (count + 1),
        ⟨.wait .writer wakes, reading, writing⟩) := by
  rw [← writersLock_register]
  refine Prod.ext rfl ?_
  show Thread.goto _ (if canAcquire .writer state then Pc.deregister .writer
    else .wait .writer wakes) = _
  rw [h]
  rfl

theorem threadStep_casRelease :
    threadStep me (writersLock state tid wakes count) ⟨.casRelease .writer state, reading, writing⟩
    = (writersLock (released .writer state) tid wakes count,
      ⟨afterRelease .writer state, reading, false⟩) := by
  exact if_pos rfl

theorem threadStep_wakeSection (h : 0 < count) :
    threadStep me (writersLock state tid wakes count) ⟨.wakeSection, reading, writing⟩
      = (writersLock state tid (wakes + 1) count, ⟨.wake .writer, reading, writing⟩) := by
  rw [← writersLock_addWake]
  exact if_pos h

end Writer

theorem reachable_holding (hok : Allows ok) : ReachableIn twoIds ok (holding 0) := by
  have h0 : ReachableIn twoIds ok (two (writersLock 0 0 0 0) ⟨.rest none, 0, false⟩ ⟨.rest none,
      0, false⟩) := by
    rw [← initial_eq]
    refine .initial ?_
    rw [initial_eq]
    exact hok.of_not_wait (by simp) (by simp)
  have h1 := two_call_false .writer rfl h0 (hok.of_not_wait (by simp [Thread.goto]) (by simp))
  have h2 := @two_run_false ok _ (writersLock 0 0 0 0) _ ⟨.casLock .writer false 0, 0,
    false⟩ _ h1 trivial (threadStep_to rfl (by decide)) (hok.of_not_wait (by simp) (by simp))
  have h3 := two_run_false h2 trivial threadStep_casLock (hok.of_not_wait (by simp) (by simp))
  rw [show acquired .writer 0 = 2 ^ 31 by decide] at h3
  have h4 := @two_run_false ok _ (writersLock (2 ^ 31) 1 0 0) _ ⟨.rest none, 0,
    true⟩ _ h3 trivial rfl (hok.of_not_wait (by simp) (by simp))
  have h5 := two_call_true .writer rfl h4 (hok.of_not_wait (by simp) (by simp [Thread.goto]))
  have h6 := @two_run_true ok _ (writersLock (2 ^ 31) 1 0 0) _ _ ⟨.checkTid .writer, 0,
    false⟩ h5 trivial (threadStep_to rfl (by decide)) (hok.of_not_wait (by simp) (by simp))
  have h7 := @two_run_true ok _ (writersLock (2 ^ 31) 1 0 0) _ _ ⟨.tryLock .writer true, 0,
    false⟩ h6 trivial (threadStep_to rfl (by decide)) (hok.of_not_wait (by simp) (by simp))
  have h8 := @two_run_true ok _ (writersLock (2 ^ 31) 1 0 0) _ _ ⟨.readState .writer, 0,
    false⟩ h7 trivial (threadStep_to rfl (by decide)) (hok.of_not_wait (by simp) (by simp))
  have h9 := @two_run_true ok _ (writersLock (2 ^ 31) 1 0 0) _ _ ⟨.register .writer, 0,
    false⟩ h8 trivial (threadStep_to rfl (by decide)) (hok.of_not_wait (by simp) (by simp))
  refine two_run_true h9 trivial (threadStep_register (by decide)) (hok _ _ _ (by simp)
    fun side serial heq => ?_)
  injection heq with hside hserial
  subst hside hserial
  decide

/-- What the states of a run need to satisfy while the first thread steps and the wake word stays.
-/
def AllowsBeside (ok : World Bool → Prop) (wakes : ℕ) (y : Thread) : Prop :=
  ∀ state tid count x, (∀ side serial, x.pc ≠ .wait side serial) →
    ok (two (writersLock state tid wakes count) x y)

variable {wakes : ℕ}

theorem reachable_released (hok : AllowsBeside ok wakes y)
    (h : ReachableIn twoIds ok (two (writersLock (2 ^ 31 + 2) 1 wakes 1) ⟨.rest none, 0, true⟩ y)) :
    ReachableIn twoIds ok (two (writersLock 2 0 wakes 1) ⟨.wakeSection, 0, false⟩ y) := by
  have h1 := two_unlock_false rfl rfl h (hok _ _ _ _ (by simp [Thread.goto]))
  have h2 := @two_run_false ok _ (writersLock (2 ^ 31 + 2) 1 wakes 1) _ ⟨.averTid, 0,
    true⟩ _ h1 trivial
    (threadStep_to rfl (if_pos (show rwlOwnedByWriterP (2 ^ 31 + 2) = true by decide)))
      (hok _ _ _ _ (by simp))
  have h3 := @two_run_false ok _ (writersLock (2 ^ 31 + 2) 1 wakes 1) _ ⟨.clearTid, 0,
    true⟩ _ h2 trivial rfl (hok _ _ _ _ (by simp))
  have h4 := @two_run_false ok _ (writersLock (2 ^ 31 + 2) 0 wakes 1) _ ⟨.readRelease .writer, 0,
    true⟩ _ h3 trivial rfl (hok _ _ _ _ (by simp))
  have h5 := @two_run_false ok _ (writersLock (2 ^ 31 + 2) 0 wakes 1) _
    ⟨.casRelease .writer (2 ^ 31 + 2), 0, true⟩ _ h4 trivial rfl (hok _ _ _ _ (by simp))
  have hafter : afterRelease .writer (2 ^ 31 + 2) = .wakeSection := by decide
  have h6 := two_run_false h5 trivial threadStep_casRelease
    (hok _ _ _ _ fun side serial => by rw [hafter]; exact Pc.noConfusion)
  rwa [hafter, show released .writer (2 ^ 31 + 2) = 2 by decide +kernel] at h6

theorem reachable_idle_succ (h : Reachable twoIds (holding wakes)) :
    Reachable twoIds (idle (wakes + 1)) := by
  have hok : AllowsBeside (fun _ => True) wakes ⟨.wait .writer 0, 0, false⟩ :=
    fun _ _ _ _ _ => trivial
  have h1 := two_run_false (reachable_released hok h) trivial
    (threadStep_wakeSection Nat.one_pos) trivial
  have hwake :=
    @Step.wakeNone Bool _ twoIds (two (writersLock 2 0 (wakes + 1) 1) ⟨.wake .writer, 0, false⟩
    ⟨.wait .writer 0, 0, false⟩) false rfl fun u serial => by cases u <;> exact Pc.noConfusion
  rw [two_goto_false] at hwake
  exact .step h1 hwake trivial

theorem reachable_holding_of_idle (h : Reachable twoIds (idle wakes)) :
    Reachable twoIds (holding wakes) := by
  have h1 := two_call_false .writer rfl h trivial
  have h2 := @two_run_false _ _ (writersLock 2 0 wakes 1) _ ⟨.casLock .writer false 2, 0,
    false⟩ _ h1 trivial (threadStep_to rfl (show attempt .writer false 2 = _ by decide)) trivial
  have h3 := two_run_false h2 trivial threadStep_casLock trivial
  rw [show acquired .writer 2 = 2 ^ 31 + 2 by decide] at h3
  exact two_run_false h3 trivial rfl trivial

theorem reachable_idle : ∀ wakes : ℕ, Reachable twoIds (idle (wakes + 1))
  | 0 => reachable_idle_succ (reachable_holding fun _ _ _ _ _ => trivial)
  | wakes + 1 => reachable_idle_succ (reachable_holding_of_idle (reachable_idle wakes))

theorem threadStep_wait {state : ℤ} (h : word wakes = 0) :
    threadStep 2 (writersLock state 0 wakes 1) ⟨.wait .writer 0, 0, false⟩
      = (writersLock state 0 wakes 1, ⟨.asleep .writer 0, 0, false⟩) := by
  refine threadStep_to rfl (if_pos ?_)
  exact h

/-- After 2^32 unlocks in the window before its wait, the thread goes to sleep at a free lock and
nobody is going to wake it. -/
theorem rwlock_sleeps_after_wrap : ∃ w : World Bool, Reachable twoIds w ∧ w.Free ∧
    (∃ t, (w.thread t).pc.Asleep) ∧ ∀ u w', Step twoIds w u w' → (w.thread u).pc.AtRest := by
  have hrun :=
    two_run_true (reachable_idle (2 ^ 32 - 1)) trivial (threadStep_wait (by decide)) trivial
  refine ⟨_, hrun, ?_, ⟨true, .writer, 0, rfl⟩, fun u w' hstep => ?_⟩
  · exact show canAcquire .writer 2 = true by decide
  cases u with
  | false => exact ⟨none, rfl⟩
  | true =>
    have hpc : ∀ pc, ((two (writersLock 2 0 (2 ^ 32 - 1 + 1) 1) ⟨.rest none, 0, false⟩
        ⟨.asleep .writer 0, 0, false⟩).thread true).pc = pc → pc = .asleep .writer 0 :=
          fun pc h => h.symm
    cases hstep with
    | lock _ h => exact h
    | unlock h _ => exact h
    | run h => exact h.elim
    | wakeOne _ _ h _ => exact Pc.noConfusion (hpc _ h)
    | wakeNone h _ => exact Pc.noConfusion (hpc _ h)
    | wakeAll h => exact Pc.noConfusion (hpc _ h)

/-- The lock has just been given back, and the second thread sleeps. -/
def sleeping : World Bool :=
  two (writersLock 2 0 0 1) ⟨.wakeSection, 0, false⟩ ⟨.asleep .writer 0, 0, false⟩

theorem reachable_sleeping : ReachableIn twoIds World.InTime sleeping := by
  have h1 := two_run_true (reachable_holding allows_inTime) trivial
    (show threadStep 2 (writersLock (2 ^ 31 + 2) 1 0 1) ⟨.wait .writer 0, 0, false⟩
      = (writersLock (2 ^ 31 + 2) 1 0 1, ⟨.asleep .writer 0, 0, false⟩) from rfl)
    (allows_inTime.of_not_wait (by simp) (by simp))
  exact reachable_released (fun _ _ _ _ hx => allows_inTime.of_not_wait hx (by simp)) h1

theorem rwlock_run_sleeping : Reachable twoIds sleeping ∧
    logand sleeping.lock.state Side.writer.flag ≠ 0 ∧
    ∃ u w', ¬ (sleeping.thread u).pc.AtRest ∧ Step twoIds sleeping u w' := by
  have hreach := reachable_sleeping.reachable
  obtain ⟨-, -, -, -, hflag, hwake⟩ := rwlock_run twoIds sleeping hreach
  have hfree : sleeping.Free := show canAcquire .writer 2 = true by decide
  exact ⟨hreach, hflag true .writer 0 rfl, hwake reachable_sleeping hfree ⟨true, .writer, 0, rfl⟩⟩

end Two

end Sbcl.Concurrency
