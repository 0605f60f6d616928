import Mathlib.Algebra.Order.BigOperators.Group.Finset
import Mathlib.Data.Nat.Size
import Sbcl.Lib.ByteSpec

/-!
# Hash sets (code/hashset.lisp)

* `Storage` : the cells with the positions of their keys in the probe sequences, the hashes and the
  two counters;
* `insertLoop`, `hashsetInsertAt` : the insertion that takes a cell from a key that is nearer to its
  first choice;
* `hashsetRehash`, `hashsetInsert`, `hashsetRemove` : the operations on a hash set that is not weak.

Nothing is returned where a value is not of its declared type. A key is none of the two markers of a
cell.
-/

namespace Sbcl.HashSet

open Function

/-- A cell: 0, which no key was ever put in, `nil`, whose key was removed, or a key. -/
inductive Cell (κ : Type) where
  | unused
  | tombstone
  | key (k : κ)

variable {κ : Type}

instance (c : Cell κ) : Decidable (c = .unused) :=
  match c with
  | .unused => isTrue rfl
  | .tombstone => isFalse nofun
  | .key _ => isFalse nofun

/-- `robinhood-hashset-storage`. -/
structure Storage (κ : Type) where
  capacity : ℕ
  cells : ℕ → Cell κ
  pslVector : ℕ → Fin 256
  hashVector : ℕ → ℕ
  maxPsl : ℕ
  nAvail : ℤ
  capacity_eq : ∃ bits, capacity = 2 ^ bits

/-- `hss-hv-inexact`. -/
def Storage.hvInexact (s : Storage κ) : Bool := s.capacity > 65536

/-- `robinhood-hashset`. -/
structure Hashset (κ : Type) where
  storage : Storage κ
  hashFunction : κ → ℤ
  testFunction : κ → κ → Bool

def powerOfTwoCeiling (x : ℕ) : ℕ := 2 ^ (x - 1).size

theorem powerOfTwoCeiling_eq (x : ℕ) : ∃ bits, powerOfTwoCeiling x = 2 ^ bits := ⟨_, rfl⟩

def allocateHashsetStorage (capacity : ℕ) (h : ∃ bits, capacity = 2 ^ bits) : Option (Storage κ) :=
  if capacity < 2 ^ 28 then some ⟨capacity, fun _ => .unused, fun _ => 0, fun _ => 0, 0,
    capacity, h⟩ else none

def makeHashset (estimatedCount : ℕ) (testFunction : κ → κ → Bool) (hashFunction : κ → ℤ) :
    Option (Hashset κ) :=
  (allocateHashsetStorage (powerOfTwoCeiling (estimatedCount * 2)) (powerOfTwoCeiling_eq _)).map
    fun storage =>
    ⟨storage, hashFunction, testFunction⟩

/-! ## Insertion -/

def triangularNumber (n : ℕ) : ℕ := n * (n - 1) / 2

/-- The cell at a position of the probe sequence of a hash. -/
def Storage.location (s : Storage κ) (hash : ℤ) (probeSequencePos : ℕ) : ℕ :=
  ((hash + triangularNumber probeSequencePos) % s.capacity).toNat

theorem location_lt (s : Storage κ) (hash : ℤ) (pos : ℕ) : s.location hash pos < s.capacity := by
  obtain ⟨bits, hbits⟩ := s.capacity_eq
  have hpos : 0 < s.capacity := by
    rw [hbits]
    exact Nat.two_pow_pos bits
  have := Int.emod_lt_of_pos (hash + triangularNumber pos) (Int.natCast_pos.2 hpos)
  unfold Storage.location
  omega

/-- The position of the key in a cell, which is disregarded where the key was removed. -/
def Storage.probedKeyPsp (s : Storage κ) (location : ℕ) : ℕ :=
  match s.cells location with
  | .tombstone => 0
  | _ => s.pslVector location

/-- A key is put in a cell. -/
def Storage.put (s : Storage κ) (location : ℕ) (key : κ) (hash : ℤ) (pos : Fin 256) : Storage κ :=
  { s with
    cells := update s.cells location (.key key)
    pslVector := update s.pslVector location pos
    hashVector := update s.hashVector location (hash % 65536).toNat
    maxPsl := max s.maxPsl pos }

/-- What the positions in the probe sequences can still grow by. -/
def Storage.room (s : Storage κ) : ℕ := ∑ i ∈ Finset.range s.capacity, (255 - (s.pslVector i).val)

theorem room_put {s : Storage κ} {location pos : ℕ} {key : κ} {hash : ℤ} (hpos : pos < 256)
    (hlocation : location < s.capacity)
    (h : (s.pslVector location).val < pos) :
    (s.put location key hash ⟨pos, hpos⟩).room < s.room := by
  unfold Storage.room Storage.put
  apply Finset.sum_lt_sum
  · intro i _
    dsimp only
    by_cases hi : i = location
    · subst hi
      rw [update_self]
      dsimp only
      omega
    · rw [update_of_ne hi]
  · refine ⟨location, Finset.mem_range.2 hlocation, ?_⟩
    dsimp only
    rw [update_self]
    dsimp only
    omega

/-- The loop of `hashset-%insert`, with the marker of the cell that the last key is put in. -/
def insertLoop (hashFunction : κ → ℤ) (s : Storage κ) (probeSequencePos : ℕ) (key : κ) (hash : ℤ) :
    Option (Storage κ × Cell κ) :=
  let pos := probeSequencePos + 1
  if hpos : pos < 256 then
    let location := s.location hash pos
    if s.probedKeyPsp location < pos then
      match _hprobed : s.cells location with
      | .key probedKey =>
        insertLoop hashFunction (s.put location key hash ⟨pos, hpos⟩)
          (s.probedKeyPsp location) probedKey
          (if s.hvInexact then hashFunction probedKey else s.hashVector location)
      | probedKey => some (s.put location key hash ⟨pos, hpos⟩, probedKey)
    else insertLoop hashFunction s pos key hash
  else none
termination_by (s.room, 256 - probeSequencePos)
decreasing_by
  · refine Prod.Lex.left _ _ (room_put hpos (location_lt s hash _) ?_)
    have hpsp : s.probedKeyPsp (s.location hash (probeSequencePos + 1)) =
        s.pslVector (s.location hash (probeSequencePos + 1)) := by
      unfold Storage.probedKeyPsp
      rw [_hprobed]
    rw [← hpsp]
    exact ‹s.probedKeyPsp _ < _›
  · exact Prod.Lex.right _ (by omega)

/-- `hashset-%insert`. -/
def hashsetInsertAt (hashset : Hashset κ) (s : Storage κ) (key : κ) (hash : ℤ) :
    Option (Storage κ × Cell κ) :=
  insertLoop hashset.hashFunction s 0 key hash

/-- The loop of `hashset-rehash` over the old cells below `i`, with the number of the keys that were
inserted. -/
def rehashLoop (hashset : Hashset κ) (old : Storage κ) : ℕ → Storage κ → ℕ → Option (Storage κ × ℕ)
  | 0, new, nInserted => some (new, nInserted)
  | i + 1, new, nInserted =>
    match old.cells i with
    | .key key =>
      match hashsetInsertAt hashset new key (if new.hvInexact then hashset.hashFunction key
        else old.hashVector i) with
      | some (new, _) => rehashLoop hashset old i new (nInserted + 1)
      | none => none
    | _ => rehashLoop hashset old i new nInserted

theorem newCapacity_eq (x : ℕ) : ∃ bits, max 64 (powerOfTwoCeiling x) = 2 ^ bits := by
  rcases max_choice 64 (powerOfTwoCeiling x) with h | h
  · exact ⟨6, h⟩
  · exact ⟨_, h⟩

/-- `hashset-rehash`, for a count that is known. -/
def hashsetRehash (hashset : Hashset κ) (count : ℕ) : Option (Storage κ) :=
  (allocateHashsetStorage (max 64 (powerOfTwoCeiling (count * 2))) (newCapacity_eq _)).bind
    fun new =>
    (rehashLoop hashset hashset.storage hashset.storage.capacity new 0).map fun (new, nInserted) =>
      { new with nAvail := new.nAvail - nInserted }

/-- The test of `hashset-insert` that a rehash comes first. -/
def needsRehash (s : Storage κ) : Bool := s.nAvail < (s.capacity / 4 : ℕ)

/-- The storage that `hashset-insert` probes. -/
def insertStorage (hashset : Hashset κ) : Option (Storage κ) :=
  let s := hashset.storage
  if needsRehash s then
    -- The cells that lose one from their counter are those of the old storage.
    hashsetRehash hashset (s.capacity - s.nAvail).toNat
  else some { s with nAvail := s.nAvail - 1 }

def hashsetInsert (hashset : Hashset κ) (key : κ) : Option (Hashset κ) :=
  (insertStorage hashset).bind fun s =>
    (hashsetInsertAt hashset s key (hashset.hashFunction key)).map fun (s, _) =>
      { hashset with storage := s }

/-- The loop of `hashset-remove`. -/
def removeLoop (hashset : Hashset κ) (key : κ) (index iteration : ℕ) : Hashset κ :=
  let s := hashset.storage
  match s.cells index with
  | .unused => hashset
  | .key probedValue =>
    if hashset.testFunction probedValue key then
      { hashset with storage := { s with cells := update s.cells index .tombstone } }
    else if iteration ≥ s.maxPsl then hashset
    else removeLoop hashset key ((index + iteration) % s.capacity) (iteration + 1)
  | .tombstone =>
    if iteration ≥ s.maxPsl then hashset
    else removeLoop hashset key ((index + iteration) % s.capacity) (iteration + 1)
termination_by hashset.storage.maxPsl - iteration
decreasing_by
  all_goals
    have hmax : ¬ iteration ≥ hashset.storage.maxPsl := ‹_›
    omega

def hashsetRemove (hashset : Hashset κ) (key : κ) : Hashset κ :=
  removeLoop hashset key (hashset.hashFunction key % hashset.storage.capacity).toNat 1

end Sbcl.HashSet
