import Sbcl.Lib.Probing
import Sbcl.Packages.Package
import Sbcl.Packages.Primep

/-!
# Symbol tables (code/target-package.lisp)

* `Magic` : what the hash functions of a table are computed with;
* `lookupSymbol` : the probe sequence up to the name or to a cell that was never used;
* `ins`, `resizeSymbolTable` : Robin Hood insertion into a new vector;
* `addSymbol`, `nukeSymbol` : with the counts of the free and of the deleted cells.

Loops take fuel, and are `none` when they run out of it. Perfect hash functions and immutable
vectors, which are not made by these operations, are left out.
-/

namespace Sbcl.SymbolTables

open Sbcl.Packages (Sym chooseGoodSize)

variable {N : Type}

/-- `symtbl-magic` -/
structure Magic where
  hash1Mask : ℕ
  hash1C : ℕ
  hash2Mask : ℕ
deriving DecidableEq

/-- The hashes of names, and `optimized-symtbl-remainder-params`: the tables work with any mask and
coefficient that make up the first hash. -/
structure Hashing (N : Type) where
  nameHash : N → ℕ
  remainderParams : ℕ → ℕ × ℕ

def fastrem32 (dividend c divisor : ℕ) : ℕ := dividend * c % 2 ^ 32 * divisor / 2 ^ 32

/-- `(symbol-table-hash 1 name-hash ncells)` -/
def hash1 (magic : Magic) (nameHash ncells : ℕ) : ℕ :=
  let dividend := nameHash &&& magic.hash1Mask
  if magic.hash1C = 0 then dividend % ncells else fastrem32 dividend magic.hash1C ncells

/-- `(symbol-table-hash 2 name-hash ncells)` -/
def hash2 (magic : Magic) (nameHash : ℕ) : ℕ := 1 + (magic.hash2Mask &&& nameHash)

/-- A cell that was never used, one that is deleted, or a symbol. -/
inductive Cell (N : Type) where
  | unused
  | deleted
  | symbol (s : Sym N)
deriving DecidableEq

def Cell.isSymbol : Cell N → Bool
  | .symbol _ => true
  | _ => false

structure SymbolTable (N : Type) where
  magic : Magic
  cells : List (Cell N)
  size : ℕ
  free : ℕ
  deleted : ℕ
deriving DecidableEq

namespace SymbolTable

/-- `%symtbl-count` -/
def count (t : SymbolTable N) : ℕ := t.size - (t.deleted + t.free)

end SymbolTable

/-- The magic of a vector of `n` cells. -/
def makeSymtblMagic (hashing : Hashing N) (n : ℕ) : Magic :=
  if n = 3 then ⟨0, 0, 0⟩
  else ⟨(hashing.remainderParams n).1, (hashing.remainderParams n).2, 2 ^ Nat.log2 n - 1⟩

/-- The number of cells for a size, at the load factor 3/4. -/
def physicalSize (size : ℕ) : ℕ :=
  let start := (size * 4 + 2) / 3 ||| 1
  chooseGoodSize (start + 1) start

def makeSymbolTable (hashing : Hashing N) (size : ℕ) : SymbolTable N :=
  let n := physicalSize size
  ⟨makeSymtblMagic hashing n, List.replicate n .unused, n * 3 / 4, n * 3 / 4, 0⟩

/-- The constant cells of a table of no size. -/
def emptyCells : List (Cell N) := [.unused, .unused, .unused]

section Operations

variable [DecidableEq N] (hashing : Hashing N)

/-- The loop of `%lookup-symbol` : the symbol and its index, or a miss. -/
def probe (cells : List (Cell N)) (name : N) (h2 : ℕ) : ℕ → ℕ → Option (Option (Sym N × ℕ))
  | 0, _ => none
  | fuel + 1, index =>
    let next := if cells.length ≤ index + h2 then index + h2 - cells.length else index + h2
    match cells[index]? with
    | some (.symbol s) =>
      if hashing.nameHash s.name = hashing.nameHash name ∧ s.name = name then some (some (s, index))
      else probe cells name h2 fuel next
    | some .deleted => probe cells name h2 fuel next
    | some .unused => some none
    | none => none

def lookupSymbol (t : SymbolTable N) (name : N) : Option (Option (Sym N × ℕ)) :=
  let len := t.cells.length
  probe hashing t.cells name (hash2 t.magic (hashing.nameHash name)) len
    (hash1 t.magic (hashing.nameHash name) len)

/-- The new vector with the probe sequence positions of its symbols. -/
structure Rehash (N : Type) where
  vec : List (Cell N)
  psps : List (Option ℕ)
deriving DecidableEq

/-- `ins` : a symbol takes the cell of one that is nearer to the start of its probe sequence. -/
def ins (magic : Magic) : ℕ → ℕ → Sym N → Rehash N → Option (Rehash N)
  | 0, _, _, _ => none
  | fuel + 1, probeSequencePos, symbol, r =>
    let ncells := r.vec.length
    let h1 := hash1 magic (hashing.nameHash symbol.name) ncells
    let h2 := hash2 magic (hashing.nameHash symbol.name)
    let index := (h1 + probeSequencePos * h2) % ncells
    match r.psps[index]?, r.vec[index]? with
    | some cellPsp, some occupant =>
      if cellPsp.all (· < probeSequencePos) then
        let r' : Rehash N :=
          ⟨r.vec.set index (.symbol symbol), r.psps.set index (some probeSequencePos)⟩
        match occupant, cellPsp with
        | .symbol s, some psp => ins magic fuel (psp + 1) s r'
        | _, _ => some r'
      else ins magic fuel (probeSequencePos + 1) symbol r
    | _, _ => none

/-- The symbols of the old vector, one after the other. -/
def insAll (magic : Magic) : List (Cell N) → Rehash N → Option (Rehash N)
  | [], r => some r
  | .symbol s :: cells, r => do
      let r ← ins hashing magic ((r.vec.length + 2) ^ 3) 0 s r
      insAll magic cells r
  | _ :: cells, r => insAll magic cells r

def resizeSymbolTable (t : SymbolTable N) (size : ℕ) : Option (SymbolTable N) :=
  if size = 0 then some ⟨⟨0, 0, 0⟩, emptyCells, 0, 0, 0⟩
  else do
    let temp := makeSymbolTable hashing size
    let r ← insAll hashing temp.magic t.cells ⟨temp.cells, List.replicate temp.cells.length none⟩
    return { temp with cells := r.vec, free := temp.free - t.cells.countP Cell.isSymbol }

/-- The first cell on the probe sequence without a symbol. -/
def findUnoccupied (cells : List (Cell N)) (h2 : ℕ) : ℕ → ℕ → Option (ℕ × Cell N)
  | 0, _ => none
  | fuel + 1, i =>
    match cells[i]? with
    | some (.symbol _) => findUnoccupied cells h2 fuel ((i + h2) % cells.length)
    | some old => some (i, old)
    | none => none

/-- The part of `add-symbol` after the resize. -/
def storeSymbol (t : SymbolTable N) (symbol : Sym N) : Option (SymbolTable N) := do
  let len := t.cells.length
  let nameHash := hashing.nameHash symbol.name
  let (i, old) ← findUnoccupied t.cells (hash2 t.magic nameHash) len (hash1 t.magic nameHash len)
  let t := { t with cells := t.cells.set i (.symbol symbol) }
  return if old = .unused then { t with free := t.free - 1 }
    else { t with deleted := t.deleted - 1 }

def addSymbol (t : SymbolTable N) (symbol : Sym N) : Option (SymbolTable N) := do
  let t ← if t.free = 0 then resizeSymbolTable hashing t (max 1 ((t.size - t.deleted) * 2))
    else some t
  storeSymbol hashing t symbol

def nukeSymbol (t : SymbolTable N) (symbol : Sym N) : Option (SymbolTable N) := do
  let found ← lookupSymbol hashing t symbol.name
  let t :=
    match found with
    | some (_, index) => { t with cells := t.cells.set index .deleted, deleted := t.deleted + 1 }
    | none => t
  if t.count < t.size / 4 then resizeSymbolTable hashing t (t.count * 2) else return t

/-- The tables of runs from an empty table, with the symbols that were added and not removed since.
Looking up a symbol does not change the table. -/
inductive Reachable : SymbolTable N → Set (Sym N) → Prop
  | make (size : ℕ) : Reachable (makeSymbolTable hashing size) ∅
  | add {t t' : SymbolTable N} {S : Set (Sym N)} {s : Sym N} : Reachable t S →
    (∀ u ∈ S, u.name ≠ s.name) →
      addSymbol hashing t s = some t' → Reachable t' (insert s S)
  | nuke {t t' : SymbolTable N} {S : Set (Sym N)} {s : Sym N} : Reachable t S → s ∈ S →
      nukeSymbol hashing t s = some t' → Reachable t' (S \ {s})

end Operations

end Sbcl.SymbolTables
