import Sbcl.Runtime.HashSetPlacement

/-!
# The occupancy of hash sets

* `Accurate` : the counter of the available cells is right;
* `insertLoop_spec` : an insertion takes an unused cell at most;
* `hashsetRehash_spec` : the new storage of a rehash is right, and loses no cell to the key that is
  inserted next;
* `insertHolds_iff` : the insertions that keep the counter right, with an empty cell on the probe
  sequence, and end;
* `runHolds_iff` : the runs of such insertions, and of removals.
-/

namespace Sbcl.HashSet

open Function Probing Option Finset

variable {κ : Type} {s s' : Storage κ} {hashset next : Hashset κ} {key : κ}

/-! ## Cells -/

/-- The number of the cells that are not empty. -/
def nonEmpty (s : Storage κ) : ℕ :=
  ((Finset.range s.capacity).filter fun i => s.cells i ≠ .unused).card

/-- The recorded number of available cells is that of the empty ones. -/
def Accurate (s : Storage κ) : Prop := s.nAvail = s.capacity - nonEmpty s

def NoTombstones (s : Storage κ) : Prop := ∀ i, s.cells i ≠ .tombstone

/-- An empty cell is on the probe sequence. -/
def EmptyOnSequence (s : Storage κ) (hash : ℤ) : Prop :=
  ∃ pos, 0 < pos ∧ pos ≤ s.capacity ∧ s.cells (s.location hash pos) = .unused

theorem nonEmpty_le (s : Storage κ) : nonEmpty s ≤ s.capacity := by
  have := card_filter_le (Finset.range s.capacity) fun i => s.cells i ≠ .unused
  rwa [card_range] at this

theorem emptyOnSequence_of_lt (h : nonEmpty s < s.capacity) (hash : ℤ) :
    EmptyOnSequence s hash := by
  obtain ⟨i, hi, hcell⟩ : ∃ i < s.capacity, s.cells i = .unused := by
    by_contra hall
    push Not at hall
    have hfilter : ((Finset.range s.capacity).filter fun i => s.cells i ≠ .unused) =
        Finset.range s.capacity :=
      filter_true_of_mem fun i hi => hall i (mem_range.1 hi)
    unfold nonEmpty at h
    rw [hfilter, card_range] at h
    exact lt_irrefl _ h
  obtain ⟨bits, hbits⟩ := s.capacity_eq
  rw [hbits] at hi
  obtain ⟨pos, hpos, hle, heq⟩ := exists_triangular hi hash
  refine ⟨pos, hpos, hbits ▸ hle, ?_⟩
  have hlocation : s.location hash pos = i := by
    unfold Storage.location
    rw [hbits]
    exact heq
  rw [hlocation]
  exact hcell

theorem key_ne_unused {k : κ} : Cell.key k ≠ .unused := by
  rintro ⟨⟩

theorem tombstone_ne_unused : (Cell.tombstone : Cell κ) ≠ .unused := by
  rintro ⟨⟩

section Put
variable {location : ℕ} {hash : ℤ} {pos : Fin 256}

theorem nonEmpty_update {c : Cell κ} (hlocation : location < s.capacity) (hc : c ≠ .unused)
    (hs' : s'.capacity = s.capacity ∧ s'.cells = update s.cells location c) :
    nonEmpty s' = nonEmpty s + if s.cells location = .unused then 1 else 0 := by
  obtain ⟨hcapacity, hcells⟩ := hs'
  have hfilter : ((Finset.range s.capacity).filter fun i => s'.cells i ≠ .unused) =
      insert location ((Finset.range s.capacity).filter fun i => s.cells i ≠ .unused) := by
    ext i
    rw [hcells]
    by_cases hi : i = location
    · subst hi
      simp [hc, hlocation]
    · simp [hi]
  unfold nonEmpty
  rw [hcapacity, hfilter]
  split
  · rename_i hunused
    rw [card_insert_of_notMem (by simp [hunused])]
  · rename_i hused
    rw [insert_eq_of_mem (by simp [hused, hlocation]), Nat.add_zero]

theorem noTombstones_put (h : NoTombstones s) : NoTombstones (s.put location key hash pos) := by
  intro i
  unfold Storage.put
  dsimp only
  by_cases hi : i = location
  · subst hi
    rw [update_self]
    exact fun heq => nomatch heq
  · rw [update_of_ne hi]
    exact h i

end Put

/-- What an insertion does to the cells and the counters. -/
structure Inserts (hashFunction : κ → ℤ) (s s' : Storage κ) (key : κ) (hash : ℤ) (last : Cell κ) :
    Prop where
  capacity : s'.capacity = s.capacity
  nAvail : s'.nAvail = s.nAvail
  nonEmpty : nonEmpty s' = nonEmpty s + if last = .unused then 1 else 0
  noTombstones : NoTombstones s → NoTombstones s' ∧ last = .unused
  placed : Placed hashFunction s → (s.hvInexact → hash = hashFunction key) → Placed hashFunction s'

theorem insertLoop_spec {hashFunction : κ → ℤ} {last : Cell κ} {pos : ℕ} {hash : ℤ}
    (h : insertLoop hashFunction s pos key hash = some (s', last)) :
    Inserts hashFunction s s' key hash last := by
  fun_induction insertLoop hashFunction s pos key hash with
  | case1 s pos key hash pos' hpos location hpsp probedKey hprobed ih =>
    obtain ⟨hcapacity, hnAvail, hnonEmpty, hnoTombstones, hplaced⟩ := ih h
    have hput := @nonEmpty_update κ s (s.put location key hash ⟨pos', hpos⟩) location (.key key)
      (location_lt s hash _) key_ne_unused ⟨rfl, rfl⟩
    rw [hprobed, if_neg key_ne_unused, Nat.add_zero] at hput
    rw [hput] at hnonEmpty
    refine ⟨hcapacity, hnAvail, hnonEmpty, fun hs => hnoTombstones (noTombstones_put hs),
      fun hs hkey => ?_⟩
    refine hplaced (@placed_put κ s hashFunction key hash ⟨pos', hpos⟩ hs hkey) fun hexact => ?_
    have hexact' : s.hvInexact = true := hexact
    rw [dif_pos hexact']
  | case2 s pos key hash pos' hpos location hpsp hprobed =>
    obtain ⟨rfl, rfl⟩ := Prod.mk.inj (Option.some.inj h)
    have hput := @nonEmpty_update κ s (s.put location key hash ⟨pos', hpos⟩) location (.key key)
      (location_lt s hash _) key_ne_unused ⟨rfl, rfl⟩
    refine ⟨rfl, rfl, hput, fun hs => ⟨noTombstones_put hs, ?_⟩,
      @placed_put κ s hashFunction key hash ⟨pos', hpos⟩⟩
    cases hcell : s.cells location with
    | unused => rfl
    | tombstone => exact absurd hcell (hs location)
    | key k => exact absurd hcell (hprobed k)
  | case3 s pos key hash pos' hpos location hpsp ih => exact ih h
  | case4 s pos key hash pos' hpos => cases h

theorem rehashLoop_spec {old new new' : Storage κ} {i n n' : ℕ} (hnew : NoTombstones new)
    (h : rehashLoop hashset old i new n = some (new', n')) : NoTombstones new' ∧
    new'.capacity = new.capacity ∧
      new'.nAvail = new.nAvail ∧ nonEmpty new' + n = nonEmpty new + n' := by
  induction i generalizing new n with
  | zero =>
    obtain ⟨rfl, rfl⟩ := Prod.mk.inj (Option.some.inj h)
    exact ⟨hnew, rfl, rfl, rfl⟩
  | succ i ih =>
    unfold rehashLoop at h
    split at h
    · split at h
      · rename_i new1 last hinsert
        obtain ⟨hcapacity, hnAvail, hnonEmpty, hnoTombstones, -⟩ := insertLoop_spec hinsert
        obtain ⟨hnew1, hlast⟩ := hnoTombstones hnew
        obtain ⟨h1, h2, h3, h4⟩ := ih hnew1 h
        rw [if_pos hlast] at hnonEmpty
        exact ⟨h1, h2.trans hcapacity, h3.trans hnAvail, by omega⟩
      · cases h
    · exact ih hnew h

theorem allocate_spec {capacity : ℕ} {hcapacity : ∃ bits, capacity = 2 ^ bits}
    (h : allocateHashsetStorage capacity hcapacity = some s) :
    s.capacity = capacity ∧ s.nAvail = capacity ∧ nonEmpty s = 0 ∧ NoTombstones s ∧ ∀ hashFunction,
      Placed hashFunction s := by
  unfold allocateHashsetStorage at h
  split at h
  · obtain rfl := Option.some.inj h
    refine ⟨rfl, rfl, ?_, fun i heq => ?_, fun hashFunction => ⟨fun i k heq => ?_, fun i _ => rfl⟩⟩
    rotate_left
    · cases heq
    · cases heq
    unfold nonEmpty
    simp
  · cases h

theorem hashsetRehash_spec {count : ℕ} (h : hashsetRehash hashset count = some s) : Accurate s ∧
    NoTombstones s := by
  obtain ⟨new, hnew, h⟩ := bind_eq_some_iff.1 h
  obtain ⟨⟨new', nInserted⟩, hloop, rfl⟩ := map_eq_some_iff.1 h
  obtain ⟨hcapacity, hnAvail, hnonEmpty, hnoTombstones, -⟩ := allocate_spec hnew
  obtain ⟨h1, h2, h3, h4⟩ := rehashLoop_spec hnoTombstones hloop
  refine ⟨?_, h1⟩
  have hcount : nonEmpty { new' with nAvail := new'.nAvail - nInserted } = nonEmpty new' := rfl
  unfold Accurate
  rw [hcount]
  dsimp only
  rw [h3, hnAvail, h2, hcapacity]
  omega

/-! ## One step -/

/-- What is said of an insertion: an empty cell is on the probe sequence, the loop ends, and the
counter is right. -/
def InsertHolds (hashset : Hashset κ) (key : κ) (next : Hashset κ) : Prop :=
  hashsetInsert hashset key = some next ∧ Accurate next.storage ∧
    ∃ s, insertStorage hashset = some s ∧ EmptyOnSequence s (hashset.hashFunction key)

/-- There is no rehash, and the keys, the new one among them, have a placement. -/
def InsertMeets (hashset : Hashset κ) (key : κ) : Prop :=
  needsRehash hashset.storage = false ∧
    Fits hashset.hashFunction hashset.storage 0 (hashset.hashFunction key)

/-- The counter is right, and each key is in the cell at its position. -/
structure Sound (hashset : Hashset κ) : Prop where
  accurate : Accurate hashset.storage
  placed : Placed hashset.hashFunction hashset.storage

theorem insertStorage_of_not_needsRehash (h : needsRehash hashset.storage = false) :
    insertStorage hashset = some { hashset.storage with nAvail := hashset.storage.nAvail - 1 } := by
  unfold insertStorage
  dsimp only
  rw [h]
  rfl

section Insert
variable (hs : Sound hashset)
include hs

theorem insertMeets_iff (hrehash : needsRehash hashset.storage = false) : InsertMeets hashset key ↔
    ∃ s', hashsetInsertAt hashset
    { hashset.storage with nAvail := hashset.storage.nAvail - 1 } key (hashset.hashFunction key) =
      some (s', .unused) := by
  have hplaced :
      Placed hashset.hashFunction { hashset.storage with nAvail := hashset.storage.nAvail - 1 } :=
    ⟨hs.placed.key, hs.placed.unused⟩
  unfold InsertMeets hashsetInsertAt
  rw [← insertLoop_fits hplaced fun _ => rfl]
  exact and_iff_right hrehash

theorem insertHolds_of_meets (h : InsertMeets hashset key) :
    ∃ next, InsertHolds hashset key next ∧ Sound next ∧
    next.storage.capacity = hashset.storage.capacity ∧
    next.storage.nAvail = hashset.storage.nAvail - 1 := by
  have hstorage := insertStorage_of_not_needsRehash h.1
  obtain ⟨s', hinsert⟩ := (insertMeets_iff hs h.1).1 h
  obtain ⟨hcapacity, hnAvail, hnonEmpty, -, hplaced⟩ := insertLoop_spec hinsert
  rw [if_pos rfl] at hnonEmpty
  have hcells : nonEmpty { hashset.storage with nAvail := hashset.storage.nAvail - 1 } =
      nonEmpty hashset.storage := rfl
  have hle := nonEmpty_le s'
  dsimp only at hcapacity hnAvail
  have hnext : Accurate s' := by
    have ha := hs.accurate
    unfold Accurate at ha ⊢
    rw [hnAvail, hcapacity, hnonEmpty, hcells, ha]
    omega
  refine ⟨{ hashset with storage := s' }, ⟨?_, hnext, _, hstorage, emptyOnSequence_of_lt ?_ _⟩,
    ⟨hnext, ?_⟩, hcapacity, hnAvail⟩
  · unfold hashsetInsert
    rw [hstorage, bind_some, hinsert, map_some]
  · rw [hcells]
    dsimp only
    omega
  · exact hplaced ⟨hs.placed.key, hs.placed.unused⟩ fun _ => rfl

theorem insertMeets_of_holds (h : InsertHolds hashset key next) : InsertMeets hashset key := by
  obtain ⟨hinsert, hnext, s, hstorage, -⟩ := h
  unfold hashsetInsert at hinsert
  rw [hstorage, bind_some] at hinsert
  obtain ⟨⟨s', last⟩, hinsertAt, rfl⟩ := map_eq_some_iff.1 hinsert
  obtain ⟨hcapacity, hnAvail, hnonEmpty, hnoTombstones, -⟩ := insertLoop_spec hinsertAt
  have ha := hs.accurate
  unfold Accurate at hnext ha
  rw [hnAvail, hcapacity, hnonEmpty] at hnext
  cases hrehash : needsRehash hashset.storage with
  | false =>
    rw [insertStorage_of_not_needsRehash hrehash] at hstorage
    obtain rfl := Option.some.inj hstorage
    have hcells : nonEmpty { hashset.storage with nAvail := hashset.storage.nAvail - 1 } =
        nonEmpty hashset.storage := rfl
    rw [hcells] at hnext
    dsimp only at hnext
    refine (insertMeets_iff hs hrehash).2 ⟨s', ?_⟩
    by_cases hlast : last = .unused
    · rw [hinsertAt, hlast]
    · rw [if_neg hlast] at hnext
      omega
  | true =>
    -- The counter of the new storage is right before the key takes a cell, and is left as it is.
    unfold insertStorage at hstorage
    dsimp only at hstorage
    rw [hrehash, if_pos rfl] at hstorage
    obtain ⟨haccurate, hempty⟩ := hashsetRehash_spec hstorage
    rw [if_pos (hnoTombstones hempty).2, haccurate] at hnext
    omega

theorem insertHolds_iff : (∃ next, InsertHolds hashset key next) ↔ InsertMeets hashset key := by
  constructor
  · rintro ⟨next, hnext⟩
    exact insertMeets_of_holds hs hnext
  · intro h
    obtain ⟨next, hnext, -⟩ := insertHolds_of_meets hs h
    exact ⟨next, hnext⟩

theorem sound_of_insertHolds (h : InsertHolds hashset key next) : Sound next ∧
    next.storage.capacity = hashset.storage.capacity ∧
    next.storage.nAvail = hashset.storage.nAvail - 1 := by
  obtain ⟨next', hnext', hsound⟩ := insertHolds_of_meets hs (insertMeets_of_holds hs h)
  obtain rfl := Option.some.inj (h.1.symm.trans hnext'.1)
  exact hsound

end Insert

theorem placed_remove {hashFunction : κ → ℤ} (h : Placed hashFunction s) (i : ℕ) :
    Placed hashFunction { s with cells := update s.cells i .tombstone } := by
  have hcell : ∀ {j c}, update s.cells i .tombstone j = c → c ≠ .tombstone → s.cells j = c := by
    intro j c hj hc
    by_cases hji : j = i
    · rw [hji, update_self] at hj
      exact absurd hj.symm hc
    · rwa [update_of_ne hji] at hj
  constructor
  · intro j k hj
    have hk := hcell hj fun heq => nomatch heq
    have := h.key j k hk
    unfold Storage.hashAt at this ⊢
    rw [hk] at this
    dsimp only at hj ⊢
    rw [hj]
    exact this
  · exact fun j hj => h.unused j (hcell hj fun heq => nomatch heq)

theorem removeLoop_spec (index iteration : ℕ) (hindex : index < hashset.storage.capacity)
    (hs : Sound hashset) : Sound (removeLoop hashset key index iteration) := by
  fun_induction removeLoop hashset key index iteration with
  | case1 => exact hs
  | case2 index iteration s probedValue hcell htest =>
    have hcount :=
      @nonEmpty_update κ s { s with cells := update s.cells index .tombstone } index
        .tombstone hindex
      tombstone_ne_unused ⟨rfl, rfl⟩
    rw [hcell, if_neg key_ne_unused, Nat.add_zero] at hcount
    refine ⟨?_, placed_remove hs.placed index⟩
    have ha := hs.accurate
    unfold Accurate at ha ⊢
    rw [hcount]
    exact ha
  | case3 => exact hs
  | case4 index iteration s probedValue hcell htest hmax ih =>
    exact ih (Nat.mod_lt _ (capacity_pos s))
  | case5 => exact hs
  | case6 index iteration s hcell hmax ih => exact ih (Nat.mod_lt _ (capacity_pos s))

theorem hashsetRemove_spec (hs : Sound hashset) (key : κ) : Sound (hashsetRemove hashset key) := by
  have hpos := Int.natCast_pos.2 (capacity_pos hashset.storage)
  have := Int.emod_lt_of_pos (hashset.hashFunction key) hpos
  exact removeLoop_spec _ _ (by omega) hs

/-! ## Runs -/

inductive Op (κ : Type) where
  | insert (key : κ)
  | remove (key : κ)

/-- In each state of the run the counter is right, and each insertion finds an empty cell and ends.
-/
def RunHolds (hashset : Hashset κ) : List (Op κ) → Prop
  | [] => Accurate hashset.storage
  | .insert key :: ops => Accurate hashset.storage ∧ ∃ next, InsertHolds hashset key next ∧
    RunHolds next ops
  | .remove key :: ops => Accurate hashset.storage ∧ RunHolds (hashsetRemove hashset key) ops

/-- Each insertion of the run meets the condition. -/
def RunMeets (hashset : Hashset κ) : List (Op κ) → Prop
  | [] => True
  | .insert key :: ops => InsertMeets hashset key ∧ ∀ next, hashsetInsert hashset key = some next →
    RunMeets next ops
  | .remove key :: ops => RunMeets (hashsetRemove hashset key) ops

theorem runHolds_iff_of_sound {ops : List (Op κ)} (hs : Sound hashset) : RunHolds hashset ops ↔
    RunMeets hashset ops := by
  induction ops generalizing hashset with
  | nil => exact iff_of_true hs.accurate trivial
  | cons op ops ih =>
    cases op with
    | insert key =>
      constructor
      · rintro ⟨-, next, hnext, hops⟩
        refine ⟨insertMeets_of_holds hs hnext, fun next' hnext' => ?_⟩
        obtain rfl := Option.some.inj (hnext.1.symm.trans hnext')
        exact (ih (sound_of_insertHolds hs hnext).1).1 hops
      · rintro ⟨hmeets, hops⟩
        obtain ⟨next, hnext⟩ := (insertHolds_iff hs).2 hmeets
        exact ⟨hs.accurate, next, hnext,
          (ih (sound_of_insertHolds hs hnext).1).2 (hops next hnext.1)⟩
    | remove key =>
      have hnext := hashsetRemove_spec hs key
      exact ⟨fun h => (ih hnext).1 h.2, fun h => ⟨hs.accurate, (ih hnext).2 h⟩⟩

section Make
variable {estimatedCount : ℕ} {testFunction : κ → κ → Bool} {hashFunction : κ → ℤ}

theorem makeHashset_spec (h : makeHashset estimatedCount testFunction hashFunction = some hashset) :
    Sound hashset ∧ hashset.storage.capacity = powerOfTwoCeiling (estimatedCount * 2) ∧
      hashset.storage.nAvail = powerOfTwoCeiling (estimatedCount * 2) := by
  obtain ⟨s, hs, rfl⟩ := map_eq_some_iff.1 h
  obtain ⟨hcapacity, hnAvail, hnonEmpty, -, hplaced⟩ := allocate_spec hs
  refine ⟨⟨?_, hplaced _⟩, hcapacity, hnAvail⟩
  unfold Accurate
  rw [hnAvail, hcapacity, hnonEmpty]
  omega

/-- The counter stays right, with an empty cell for each insertion, if and only if at each insertion
a quarter of the cells is available and the keys have a placement that leaves the cells of removed
keys alone. -/
theorem runHolds_iff (hmake : makeHashset estimatedCount testFunction hashFunction = some hashset)
    (ops : List (Op κ)) :
    RunHolds hashset ops ↔ RunMeets hashset ops := runHolds_iff_of_sound (makeHashset_spec hmake).1

end Make

/-- An insertion of a run that is known to end. -/
theorem runMeets_insert {ops : List (Op κ)} (hs : Sound hashset)
    (hrehash : needsRehash hashset.storage = false)
    (hinsert : insertLoop hashset.hashFunction
      { hashset.storage with nAvail := hashset.storage.nAvail - 1 } 0 key
      (hashset.hashFunction key) = some (s', .unused))
    (hops : Sound { hashset with storage := s' } → RunMeets { hashset with storage := s' } ops) :
    RunMeets hashset (.insert key :: ops) := by
  have hmeets := (insertMeets_iff hs hrehash).2 ⟨s', hinsert⟩
  obtain ⟨next', hnext', hsound, -⟩ := insertHolds_of_meets hs hmeets
  have hnext : hashsetInsert hashset key = some { hashset with storage := s' } := by
    unfold hashsetInsert hashsetInsertAt
    rw [insertStorage_of_not_needsRehash hrehash, bind_some, hinsert, map_some]
  obtain rfl := Option.some.inj (hnext'.1.symm.trans hnext)
  refine ⟨hmeets, fun next h => ?_⟩
  obtain rfl := Option.some.inj (hnext.symm.trans h)
  exact hops hsound

theorem runMeets_remove {ops : List (Op κ)} (hs : Sound hashset)
    (hremove : hashsetRemove hashset key = next)
    (hops : Sound next → RunMeets next ops) : RunMeets hashset (.remove key :: ops) := by
  subst hremove
  exact hops (hashsetRemove_spec hs key)

theorem length_of_runHolds {keys : List κ} (hs : Sound hashset)
    (h : RunHolds hashset (keys.map .insert)) :
    keys.length ≤ (hashset.storage.nAvail - (hashset.storage.capacity / 4 : ℕ) + 1).toNat := by
  induction keys generalizing hashset with
  | nil => exact Nat.zero_le _
  | cons key keys ih =>
    obtain ⟨-, next, hnext, hkeys⟩ := h
    obtain ⟨hsound, hcapacity, hnAvail⟩ := sound_of_insertHolds hs hnext
    have hlen := ih hsound hkeys
    rw [hcapacity, hnAvail] at hlen
    have hrehash := (insertMeets_of_holds hs hnext).1
    unfold needsRehash at hrehash
    rw [decide_eq_false_iff_not] at hrehash
    rw [List.length_cons]
    omega

/-- In a hash set of eight cells the key 8 takes the cell of the key 1, and after a removal 9 goes
past both to a third cell. -/
theorem runHolds_iff_displaced : ∃ hashset,
    makeHashset 4 (fun a b : ℕ => a == b) (fun k => (k : ℤ)) = some hashset ∧
    RunHolds hashset [.insert 0, .insert 1, .insert 8, .remove 0, .insert 9] := by
  obtain ⟨hashset, hmake⟩ : ∃ hashset, makeHashset 4 (fun a b : ℕ => a == b) (fun k => (k : ℤ)) =
      some hashset := ⟨_, rfl⟩
  refine ⟨hashset, hmake, (runHolds_iff hmake _).2 ?_⟩
  have hs := (makeHashset_spec hmake).1
  cases hmake
  apply runMeets_insert hs rfl
  · rw [insertLoop]
    rfl
  intro hs
  apply runMeets_insert hs rfl
  · rw [insertLoop]
    rfl
  intro hs
  apply runMeets_insert hs rfl
  · rw [insertLoop]
    change insertLoop _ _ 1 8 8 = _
    rw [insertLoop]
    change insertLoop _ _ 1 1 1 = _
    rw [insertLoop]
    rfl
  intro hs
  apply runMeets_remove hs
  · unfold hashsetRemove
    rw [removeLoop]
  intro hs
  apply runMeets_insert hs rfl
  · rw [insertLoop]
    change insertLoop _ _ 1 9 9 = _
    rw [insertLoop]
    change insertLoop _ _ 2 9 9 = _
    rw [insertLoop]
    rfl
  exact fun _ => trivial

/-- In a hash set for 32 keys, which has 64 cells, the counter is wrong after 50 insertions. -/
theorem not_runHolds_fifty : ∃ hashset,
    makeHashset 32 (fun a b : ℕ => a == b) (fun k => (k : ℤ)) = some hashset ∧
    ¬ RunHolds hashset ((List.range 50).map .insert) := by
  obtain ⟨hashset, hmake⟩ : ∃ hashset, makeHashset 32 (fun a b : ℕ => a == b) (fun k => (k : ℤ)) =
      some hashset := ⟨_, rfl⟩
  refine ⟨hashset, hmake, fun h => ?_⟩
  obtain ⟨ha, hcapacity, hnAvail⟩ := makeHashset_spec hmake
  have hlen := length_of_runHolds ha h
  rw [List.length_range, hcapacity, hnAvail] at hlen
  exact absurd hlen (by decide)

end Sbcl.HashSet
