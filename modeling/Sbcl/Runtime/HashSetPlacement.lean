import Sbcl.Lib.Probing
import Sbcl.Runtime.HashSet

/-!
# The cells that the keys of a hash set come to

* `Placed` : each key is in the cell at its position;
* `Fits` : the keys, and one more, have a placement that takes no cell of a removed key;
* `insertLoop_fits` : the insertion ends at a cell that was never used if and only if there is one.
-/

namespace Sbcl.HashSet

open Function Probing Option Int

variable {κ : Type} {s s' : Storage κ} {hashFunction : κ → ℤ} {key : κ} {hash : ℤ} {pos : ℕ}

theorem capacity_pos (s : Storage κ) : 0 < s.capacity := by
  obtain ⟨bits, hbits⟩ := s.capacity_eq
  rw [hbits]
  exact Nat.two_pow_pos bits

/-! ## Probe sequences -/

theorem location_eq_iff {hash' : ℤ} {r : ℕ} :
    s.location hash r = s.location hash' r ↔ hash % s.capacity = hash' % s.capacity := by
  have hpos := natCast_pos.2 (capacity_pos s)
  have h1 := emod_nonneg (hash + triangularNumber r) hpos.ne'
  have h2 := emod_nonneg (hash' + triangularNumber r) hpos.ne'
  unfold Storage.location
  constructor
  · intro h
    have hmod : hash + triangularNumber r ≡ hash' + triangularNumber r [ZMOD s.capacity] := by
      unfold Int.ModEq
      omega
    exact Int.ModEq.add_right_cancel' _ hmod
  · intro h
    rw [Int.ModEq.add_right (triangularNumber r : ℤ) h]

/-- The hash of the key in a cell, as `hashset-%insert` takes it. -/
def Storage.hashAt (s : Storage κ) (hashFunction : κ → ℤ) (i : ℕ) : ℤ :=
  match s.cells i with
  | .key key => if s.hvInexact then hashFunction key else s.hashVector i
  | _ => 0

theorem location_hashAt_put {l : ℕ} {p : Fin 256} (hkey : s.hvInexact → hash = hashFunction key)
    (r : ℕ) : s.location ((s.put l key hash p).hashAt hashFunction l) r = s.location hash r := by
  have hexact' : (s.put l key hash p).hvInexact = s.hvInexact := rfl
  have hhash : (s.put l key hash p).hashAt hashFunction l =
      if s.hvInexact then hash else hash % 65536 := by
    unfold Storage.hashAt
    rw [hexact', show (s.put l key hash p).cells l = .key key from update_self ..,
      show (s.put l key hash p).hashVector l =
      (hash % 65536).toNat from update_self .., toNat_of_nonneg (emod_nonneg _ (by decide))]
    dsimp only
    split
    · rename_i hexact
      rw [hkey hexact]
    · rfl
  rw [hhash, location_eq_iff]
  split
  · rfl
  · rename_i hexact
    obtain ⟨bits, hbits⟩ := s.capacity_eq
    have hle : s.capacity ≤ 2 ^ 16 := by
      unfold Storage.hvInexact at hexact
      simpa using hexact
    rw [hbits] at hle ⊢
    have hdvd : 2 ^ bits ∣ 2 ^ 16 :=
      Nat.pow_dvd_pow 2 ((Nat.pow_le_pow_iff_right (by decide)).1 hle)
    exact emod_emod_of_dvd hash (by exact_mod_cast hdvd)

theorem hashAt_put_of_ne {i l : ℕ} {p : Fin 256} (h : i ≠ l) :
    (s.put l key hash p).hashAt hashFunction i = s.hashAt hashFunction i := by
  unfold Storage.hashAt Storage.put
  simp only [update_of_ne h]
  rfl

/-- Each key is in the cell at its position, and no position is recorded for a cell that was never
used. -/
structure Placed (hashFunction : κ → ℤ) (s : Storage κ) : Prop where
  key : ∀ i k, s.cells i = .key k → s.location (s.hashAt hashFunction i) (s.pslVector i) = i
  unused : ∀ i, s.cells i = .unused → s.pslVector i = 0

theorem placed_put {p : Fin 256} (hplaced : Placed hashFunction s)
    (hkey : s.hvInexact → hash = hashFunction key) :
    Placed hashFunction (s.put (s.location hash p) key hash p) := by
  have hself : (s.put (s.location hash p) key hash p).cells (s.location hash p) = .key key :=
    update_self ..
  have hother : ∀ i, i ≠ s.location hash p →
    (s.put (s.location hash p) key hash p).cells i = s.cells i ∧
      (s.put (s.location hash p) key hash p).pslVector i = s.pslVector i :=
      fun i hi => ⟨update_of_ne hi .., update_of_ne hi ..⟩
  constructor
  · intro i k hi
    by_cases hil : i = s.location hash p
    · rw [hil, show (s.put (s.location hash p) key hash p).pslVector (s.location hash p) =
        p from update_self ..]
      exact location_hashAt_put hkey p
    · rw [hashAt_put_of_ne hil, (hother i hil).2]
      exact hplaced.key i k ((hother i hil).1.symm.trans hi)
  · intro i hi
    by_cases hil : i = s.location hash p
    · rw [hil, hself] at hi
      cases hi
    · rw [(hother i hil).2]
      exact hplaced.unused i ((hother i hil).1.symm.trans hi)

/-! ## The keys and their positions -/

/-- The keys: `none` is the one that is inserted, `some i` the one in the cell `i`. -/
def keysOf (s : Storage κ) : Set (Option ℕ) := {t | ∀ i ∈ t, ∃ k, s.cells i = .key k}

def tombstones (s : Storage κ) : Set ℕ := {i | s.cells i = .tombstone}

/-- The probe sequences of the keys. -/
def sequenceOf (hashFunction : κ → ℤ) (s : Storage κ) (hash : ℤ) (t : Option ℕ) (r : ℕ) : ℕ :=
  s.location (t.elim hash (s.hashAt hashFunction)) r

/-- The recorded positions of the keys. -/
def posOf (s : Storage κ) (pos : ℕ) (t : Option ℕ) : ℕ := t.elim pos fun i => s.pslVector i

/-- The keys and one more, which is past a position of the probe sequence of its hash, have a
placement at positions below 256 that comes to no cell of a removed key. -/
def Fits (hashFunction : κ → ℤ) (s : Storage κ) (pos : ℕ) (hash : ℤ) : Prop :=
  ∃ place, Placement (keysOf s) (sequenceOf hashFunction s hash) (tombstones s) 256 none
    (posOf s pos) place

theorem none_mem_keysOf : none ∈ keysOf s := by
  rintro i ⟨⟩

theorem some_mem_keysOf {i : ℕ} {k : κ} (h : s.cells i = .key k) : some i ∈ keysOf s := by
  rintro j hj
  obtain rfl := Option.some.inj hj
  exact ⟨k, h⟩

section Step
variable {l : ℕ} (hl : l = s.location hash (pos + 1)) (hplaced : Placed hashFunction s)
include hl hplaced

theorem fits_put_iff {k : κ} {p : Fin 256} (hp : p.val = pos + 1)
    (hkey : s.hvInexact → hash = hashFunction key)
    (hcell : s.cells l = .key k) (hpsl : (s.pslVector l).val < pos + 1) :
    Fits hashFunction s pos hash ↔
      Fits hashFunction (s.put l key hash p) (s.pslVector l) (s.hashAt hashFunction l) := by
  have hput : ∀ i, (s.put l key hash p).cells i = if i = l then .key key else s.cells i := by
    intro i
    unfold Storage.put
    split
    · rename_i hi
      rw [hi]
      exact update_self ..
    · rename_i hi
      exact update_of_ne hi ..
  have hkeys :
      keysOf (s.put l key hash p) = Set.preimage (Equiv.swap none (some l)) (keysOf s) := by
    ext t
    rw [Set.mem_preimage]
    have hmem := @some_mem_keysOf _ s _ _ hcell
    have hmem' := @some_mem_keysOf _ (s.put l key hash p) l key (by rw [hput, if_pos rfl])
    rcases t with - | i
    · rw [Equiv.swap_apply_left]
      exact iff_of_true none_mem_keysOf hmem
    · by_cases hi : i = l
      · rw [hi, Equiv.swap_apply_right]
        exact iff_of_true hmem' none_mem_keysOf
      · rw [Equiv.swap_apply_of_ne_of_ne (some_ne_none i) fun h => hi (Option.some.inj h)]
        unfold keysOf
        simp only [Set.mem_ofPred_eq, mem_def, Option.some.injEq, forall_eq']
        rw [hput, if_neg hi]
  have hseq : sequenceOf hashFunction (s.put l key hash p) (s.hashAt hashFunction l) =
      fun t => sequenceOf hashFunction s hash (Equiv.swap none (some l) t) := by
    funext t r
    rcases t with - | i
    · rw [Equiv.swap_apply_left]
      rfl
    · by_cases hi : i = l
      · rw [hi, Equiv.swap_apply_right]
        exact location_hashAt_put hkey r
      · rw [Equiv.swap_apply_of_ne_of_ne (some_ne_none i) fun h => hi (Option.some.inj h)]
        unfold sequenceOf
        rw [elim_some, elim_some, hashAt_put_of_ne hi]
        rfl
  have hpos : posOf (s.put l key hash p) (s.pslVector l) = fun t =>
      advance (posOf s pos) none (Equiv.swap none (some l) t) := by
    funext t
    rcases t with - | i
    · rw [Equiv.swap_apply_left, advance_of_ne (some_ne_none l)]
      rfl
    · by_cases hi : i = l
      · rw [hi, Equiv.swap_apply_right, advance_self]
        unfold posOf Storage.put
        rw [elim_some, elim_none]
        dsimp only
        rw [update_self, hp]
      · rw [Equiv.swap_apply_of_ne_of_ne (some_ne_none i) fun h => hi (Option.some.inj h),
          advance_of_ne (some_ne_none i)]
        unfold posOf Storage.put
        rw [elim_some, elim_some]
        dsimp only
        rw [update_of_ne hi]
  have hbarred : tombstones (s.put l key hash p) = tombstones s := by
    ext i
    unfold tombstones
    rw [Set.mem_ofPred_eq, Set.mem_ofPred_eq, hput]
    split
    · rename_i hi
      rw [hi, hcell]
      exact iff_of_false (fun h => nomatch h) fun h => nomatch h
    · rfl
  unfold Fits
  rw [hkeys, hseq, hpos, hbarred, ← exists_placement_comp_iff, Equiv.swap_apply_left]
  refine exists_congr fun place => placement_displace_iff none_mem_keysOf (some_mem_keysOf hcell)
    (some_ne_none l) ?_ hpsl ?_
  · exact (hplaced.key l k hcell).trans hl
  · intro h
    have hl' : l ∈ tombstones s := hl ▸ h
    exact nomatch hcell.symm.trans hl'

theorem fits_pass_iff {k : κ} (hcell : s.cells l = .key k) (hpsl : pos + 1 ≤ s.pslVector l) :
    Fits hashFunction s pos hash ↔ Fits hashFunction s (pos + 1) hash := by
  have hpos : advance (posOf s pos) none = posOf s (pos + 1) := by
    funext t
    rcases t with - | i
    · exact advance_self
    · exact advance_of_ne (some_ne_none i)
  unfold Fits
  rw [← hpos]
  refine exists_placement_pass_iff none_mem_keysOf (some_mem_keysOf hcell)
    (some_ne_none l) ?_ ?_ hpsl ?_
  · exact (hplaced.key l k hcell).trans hl
  · intro r hr
    funext q
    exact location_eq_iff.2 (location_eq_iff.1 hr)
  · intro h
    have hl' : l ∈ tombstones s := hl ▸ h
    exact nomatch hcell.symm.trans hl'

theorem fits_unused (hcell : s.cells l = .unused) (hpos : pos + 1 < 256) :
    Fits hashFunction s pos hash := by
  have hcases : ∀ t ∈ keysOf s, t ≠ none → ∃ i k, t = some i ∧ s.cells i = .key k ∧
      sequenceOf hashFunction s hash t (posOf s pos t) = i := by
    intro t ht hne
    obtain ⟨i, rfl⟩ := ne_none_iff_exists'.1 hne
    obtain ⟨k, hk⟩ := ht i rfl
    exact ⟨i, k, rfl, hk, hplaced.key i k hk⟩
  refine ⟨_, Placement.take hpos ?_ ?_ ?_ ?_⟩
  · intro t ht hne
    obtain ⟨i, k, rfl, -⟩ := hcases t ht hne
    exact (s.pslVector i).isLt
  · rintro t ⟨ht, htn⟩ u ⟨hu, hun⟩ heq
    obtain ⟨i, k, rfl, -, hi⟩ := hcases t ht htn
    obtain ⟨j, k', rfl, -, hj⟩ := hcases u hu hun
    dsimp only at heq
    rw [hi, hj] at heq
    rw [heq]
  · intro h
    have hl' : l ∈ tombstones s := hl ▸ h
    exact nomatch hcell.symm.trans hl'
  · intro t ht htn heq
    obtain ⟨i, k, rfl, hk, hi⟩ := hcases t ht htn
    rw [hi] at heq
    have hil : i = l := heq.trans hl.symm
    rw [hil, hcell] at hk
    cases hk

end Step

/-- An insertion ends at a cell that was never used if and only if the keys have a placement. -/
theorem insertLoop_fits (hplaced : Placed hashFunction s)
    (hkey : s.hvInexact → hash = hashFunction key) :
    Fits hashFunction s pos hash ↔ ∃ s', insertLoop hashFunction s pos key hash =
      some (s', .unused) := by
  fun_induction insertLoop hashFunction s pos key hash with
  | case1 s pos key hash pos' hpos location hpsp probedKey hprobed ih =>
    have hpsp' : s.probedKeyPsp location = s.pslVector location := by
      unfold Storage.probedKeyPsp
      rw [hprobed]
    have hhash : s.hashAt hashFunction location = if s.hvInexact then hashFunction probedKey
        else s.hashVector location := by
      unfold Storage.hashAt
      rw [hprobed]
    rw [hpsp'] at hpsp
    rw [hpsp', dite_eq_ite] at ih
    have hput := @fits_put_iff κ s hashFunction key hash pos location rfl hplaced probedKey ⟨pos',
      hpos⟩ rfl hkey hprobed hpsp
    rw [hput, hhash, hpsp']
    have hplaced' := @placed_put κ s hashFunction key hash ⟨pos', hpos⟩ hplaced hkey
    have hkey' : (s.put location key hash ⟨pos', hpos⟩).hvInexact →
        (if s.hvInexact then hashFunction probedKey else s.hashVector location) =
          hashFunction probedKey := by
      intro hexact
      have hexact' : s.hvInexact = true := hexact
      rw [if_pos hexact']
    exact ih hplaced' hkey'
  | case2 s pos key hash pos' hpos location hpsp hprobed =>
    cases hcell : s.cells location with
    | unused => exact iff_of_true (fits_unused rfl hplaced hcell hpos) ⟨_, rfl⟩
    | tombstone =>
      refine iff_of_false ?_ ?_
      · rintro ⟨place, h⟩
        have := h.lt_place
        exact h.notMem_barred none none_mem_keysOf (pos + 1) (Nat.lt_succ_self _) h.lt_place hcell
      · rintro ⟨s', h⟩
        cases (Prod.mk.inj (Option.some.inj h)).2
    | key k => exact absurd hcell (hprobed k)
  | case3 s pos key hash pos' hpos location hpsp ih =>
    cases hcell : s.cells location with
    | key k =>
      have hpsp' : s.probedKeyPsp location = s.pslVector location := by
        unfold Storage.probedKeyPsp
        rw [hcell]
      rw [hpsp', Nat.not_lt] at hpsp
      rw [fits_pass_iff rfl hplaced hcell hpsp]
      exact ih hplaced hkey
    | unused =>
      have hpsp' : s.probedKeyPsp location = 0 := by
        unfold Storage.probedKeyPsp
        rw [hcell, hplaced.unused location hcell]
        rfl
      exact absurd (hpsp' ▸ Nat.succ_pos pos) hpsp
    | tombstone =>
      have hpsp' : s.probedKeyPsp location = 0 := by
        unfold Storage.probedKeyPsp
        rw [hcell]
      exact absurd (hpsp' ▸ Nat.succ_pos pos) hpsp
  | case4 s pos key hash pos' hpos =>
    refine iff_of_false ?_ ?_
    · rintro ⟨place, h⟩
      have h1 := h.lt_place
      have h2 := h.place_lt none none_mem_keysOf
      have h3 : posOf s pos none = pos := rfl
      omega
    · rintro ⟨s', h⟩
      cases h

end Sbcl.HashSet
