import Sbcl.Lib.Probing

/-!
# Sparse sets (compiler/sset.lisp)

* `Heap` : the sets and their vectors; `sset-grow` gives a set another vector, and a loop goes on
  over the old one;
* `adjoinLoop`, `findLoop` : the probe loops;
* `ssetAdjoin`, `ssetGrow` : they call each other, `ssetAdjoin` to a depth;
* `across` : the elements of a vector, read as the loop comes to them;
* `Op.step`, `Op.spec` : the operations, on sparse sets and on finite sets; `run` : sequences of
  them.

A loop without fuel, a subscript out of bounds and a count that is not of type `index` are `none`.
Every set has a vector of its own, also as long as it is the literal `#()`, which is never written
to.
-/

namespace Sbcl.Ssets

variable {E : Type}

/-- `sset-element`, with the feature that stands for the host of a cross-compilation. -/
class SsetElement (E : Type) where
  number : E → ℕ
  xcHost : Bool

open SsetElement

def ssetHash1 [SsetElement E] (element : E) : ℕ :=
  let result := number element
  if xcHost E then result ^^^ (result >>> 9) ^^^ (result >>> 5)
  else
    let result := (result + result >>> 19) % 2 ^ 64
    let result := (result ^^^ (result >>> 13)) % 2 ^ 64
    let result := (result + result >>> 9) % 2 ^ 64
    let result := (result ^^^ (result >>> 5)) % 2 ^ 64
    let result := (result + result >>> 2) % 2 ^ 64
    (2 ^ 62 - 1) &&& result

def ssetHash2 [SsetElement E] (element : E) : ℕ := 1 ||| number element

def ssetRehashThreshold : ℕ := 4

/-! ## Sets -/

/-- 0, -1 or an element. -/
inductive Cell (E : Type) where
  | unused
  | deleted
  | element (e : E)
deriving DecidableEq

/-- `sset`, whose vector is an address. -/
structure Sset where
  vector : ℕ
  free : ℕ
  count : ℕ
deriving DecidableEq

structure Heap (E : Type) where
  vectors : List (List (Cell E))
  ssets : List Sset
deriving DecidableEq

namespace Heap

def initial : Heap E := ⟨[], []⟩

/-- `(setf (aref vector index) cell)` -/
def setAref (h : Heap E) (vector index : ℕ) (cell : Cell E) : Heap E :=
  { h with vectors := h.vectors.modify vector (·.set index cell) }

def setSset (h : Heap E) (set : ℕ) (s : Sset) : Heap E := { h with ssets := h.ssets.set set s }

/-- A new set with a vector of its own. -/
def makeSset (h : Heap E) (vector : List (Cell E)) (free count : ℕ) : Heap E :=
  ⟨h.vectors ++ [vector], h.ssets ++ [⟨h.vectors.length, free, count⟩]⟩

end Heap

/-- `decf` of an `index` -/
def decf : ℕ → Option ℕ
  | 0 => none
  | n + 1 => some n

/-- The loop over the elements of a vector: true if the body was for one of them. -/
def acrossFrom (vector : ℕ) (body : ℕ → E → Heap E → Option (Bool × Heap E)) :
    ℕ → ℕ → Bool → Heap E → Option (Bool × Heap E)
  | 0, _, modified, h => some (modified, h)
  | n + 1, index, modified, h => do
    let cells ← h.vectors[vector]?
    match ← cells[index]? with
    | .element e => do
      let (changed, h) ← body index e h
      acrossFrom vector body n (index + 1) (modified || changed) h
    | _ => acrossFrom vector body n (index + 1) modified h

def across (vector : ℕ) (body : ℕ → E → Heap E → Option (Bool × Heap E)) (h : Heap E) :
    Option (Bool × Heap E) := do
  let cells ← h.vectors[vector]?
  acrossFrom vector body cells.length 0 false h

/-! ## Growth and insertion -/

/-- Where a probe loop ends. -/
inductive Probe where
  | found (index : ℕ)
  | missing (deletedIndex : Option ℕ) (hash : ℕ)
deriving DecidableEq

section Operations

variable [SsetElement E] [DecidableEq E]

/-- The loop of `sset-adjoin` -/
def adjoinLoop (vector : List (Cell E)) (element : E) : ℕ → Option ℕ → ℕ → Option Probe
  | 0, _, _ => none
  | fuel + 1, deletedIndex, hash =>
    let next := (vector.length - 1) &&& (hash + ssetHash2 element)
    match vector[hash]? with
    | some .unused => some (.missing deletedIndex hash)
    | some .deleted => adjoinLoop vector element fuel (some hash) next
    | some (.element current) =>
      if current = element then some (.found hash)
        else adjoinLoop vector element fuel deletedIndex next
    | none => none

/-- The loop of `sset-delete` and of `sset-member` -/
def findLoop (vector : List (Cell E)) (element : E) : ℕ → ℕ → Option (Option ℕ)
  | 0, _ => none
  | fuel + 1, hash =>
    let next := (vector.length - 1) &&& (hash + ssetHash2 element)
    match vector[hash]? with
    | some .unused => some none
    | some (.element current) => if current = element then some (some hash)
      else findLoop vector element fuel next
    | some .deleted => findLoop vector element fuel next
    | none => none

/-- The part of `sset-adjoin` after the growth. -/
def adjoinProbe (element : E) (set : ℕ) (h : Heap E) : Option (Bool × Heap E) := do
  let s ← h.ssets[set]?
  let vector ← h.vectors[s.vector]?
  let hash := (vector.length - 1) &&& ssetHash1 element
  match ← adjoinLoop vector element vector.length none hash with
  | .found _ => return (false, h)
  | .missing (some deletedIndex) _ =>
    return (true, (h.setSset set { s with count := s.count + 1 }).setAref s.vector deletedIndex
      (.element element))
  | .missing none hash => do
    let free ← decf s.free
    return (true, (h.setSset set { s with count := s.count + 1, free := free }).setAref s.vector
      hash (.element element))

/-- `sset-grow`, with the `sset-adjoin` that it calls -/
def ssetGrow (ssetAdjoin : E → ℕ → Heap E → Option (Bool × Heap E)) (set : ℕ) (h : Heap E) :
    Option (Heap E) := do
  let s ← h.ssets[set]?
  let vector ← h.vectors[s.vector]?
  let length := if vector.length = 0 then 2 else vector.length * 2
  let new : Heap E :=
    ⟨h.vectors ++ [List.replicate length .unused], h.ssets.set set ⟨h.vectors.length, length, 0⟩⟩
  let (_, h) ← across s.vector (fun _ element h => ssetAdjoin element set h) new
  let s ← h.ssets[set]?
  if s.free < max 1 (length / ssetRehashThreshold) then none
  else return h.setSset set { s with free := s.free - max 1 (length / ssetRehashThreshold) }

/-- `sset-adjoin`, in as many calls within each other as the depth -/
def ssetAdjoin : ℕ → E → ℕ → Heap E → Option (Bool × Heap E)
  | 0, _, _, _ => none
  | depth + 1, element, set, h => do
    let s ← h.ssets[set]?
    let h ← if s.free = 0 then ssetGrow (ssetAdjoin depth) set h else some h
    adjoinProbe element set h

/-- The index of an element, if it is in the set. -/
def find (element : E) (set : ℕ) (h : Heap E) : Option (Option ℕ) := do
  let s ← h.ssets[set]?
  let vector ← h.vectors[s.vector]?
  if vector.length = 0 then return none
  else findLoop vector element vector.length ((vector.length - 1) &&& ssetHash1 element)

/-- `(decf (sset-count set))` with `(setf (aref (sset-vector set) index) -1)` -/
def bury (set index : ℕ) (h : Heap E) : Option (Heap E) := do
  let s ← h.ssets[set]?
  let count ← decf s.count
  return (h.setSset set { s with count := count }).setAref s.vector index .deleted

def ssetDelete (element : E) (set : ℕ) (h : Heap E) : Option (Bool × Heap E) := do
  match ← find element set h with
  | none => return (false, h)
  | some index => return (true, ← bury set index h)

def ssetMember (element : E) (set : ℕ) (h : Heap E) : Option Bool := do
  return (← find element set h).isSome

/-- The loop of `sset=` -/
def members (set2 : ℕ) (h : Heap E) : List (Cell E) → Option Bool
  | [] => some true
  | .element e :: cells => do
    if ← ssetMember e set2 h then members set2 h cells else return false
  | _ :: cells => members set2 h cells

/-- `sset=` -/
def ssetEqual (set1 set2 : ℕ) (h : Heap E) : Option Bool := do
  let s1 ← h.ssets[set1]?
  let s2 ← h.ssets[set2]?
  let vector ← h.vectors[s1.vector]?
  if s1.count ≠ s2.count then return false else members set2 h vector

def ssetEmpty (set : ℕ) (h : Heap E) : Option Bool := do
  return (← h.ssets[set]?).count = 0

def copySset (set : ℕ) (h : Heap E) : Option (Heap E) := do
  let s ← h.ssets[set]?
  return h.makeSset (← h.vectors[s.vector]?) s.free s.count

def ssetUnion (set1 set2 : ℕ) (h : Heap E) : Option (Bool × Heap E) := do
  let s2 ← h.ssets[set2]?
  across s2.vector (fun _ element h => ssetAdjoin 2 element set1 h) h

/-- The loop that buries the elements of `set1` that are in `set2`, or those that are not. -/
def buryMembers (member : Bool) (set1 set2 : ℕ) (h : Heap E) : Option (Bool × Heap E) := do
  let s1 ← h.ssets[set1]?
  across s1.vector (fun index element h => do
    if (← ssetMember element set2 h) = member then return (true, ← bury set1 index h)
    else return (false, h)) h

def ssetIntersection (set1 set2 : ℕ) (h : Heap E) : Option (Bool × Heap E) :=
  buryMembers false set1 set2 h

def ssetDifference (set1 set2 : ℕ) (h : Heap E) : Option (Bool × Heap E) :=
  buryMembers true set1 set2 h

def ssetUnionOfDifference (set1 set2 set3 : ℕ) (h : Heap E) : Option (Bool × Heap E) := do
  let s2 ← h.ssets[set2]?
  across s2.vector (fun _ element h => do
    if ← ssetMember element set3 h then return (false, h)
    else ssetAdjoin 2 element set1 h) h

end Operations

/-! ## Runs -/

inductive Op (E : Type) where
  | make
  | copy (set : ℕ)
  | adjoin (e : E) (set : ℕ)
  | delete (e : E) (set : ℕ)
  | union (set1 set2 : ℕ)
  | intersection (set1 set2 : ℕ)
  | difference (set1 set2 : ℕ)
  | unionOfDifference (set1 set2 set3 : ℕ)
  | member (e : E) (set : ℕ)
  | count (set : ℕ)
  | empty (set : ℕ)
  | equal (set1 set2 : ℕ)
deriving DecidableEq

/-- What an operation returns: a truth value, a count, or the number of the new set. -/
inductive Answer where
  | truth (b : Bool)
  | number (n : ℕ)
deriving DecidableEq

section Runs

variable [DecidableEq E]

/-- An operation on sparse sets. -/
def Op.step [SsetElement E] (h : Heap E) : Op E → Option (Answer × Heap E)
  | make => some (.number h.ssets.length, h.makeSset [] 0 0)
  | copy set => (copySset set h).map (Answer.number h.ssets.length, ·)
  | adjoin e set => (ssetAdjoin 2 e set h).map (.map .truth id)
  | delete e set => (ssetDelete e set h).map (.map .truth id)
  | union set1 set2 => (ssetUnion set1 set2 h).map (.map .truth id)
  | intersection set1 set2 => (ssetIntersection set1 set2 h).map (.map .truth id)
  | difference set1 set2 => (ssetDifference set1 set2 h).map (.map .truth id)
  | unionOfDifference set1 set2 set3 =>
    (ssetUnionOfDifference set1 set2 set3 h).map (.map .truth id)
  | member e set => (ssetMember e set h).map (Answer.truth ·, h)
  | count set => h.ssets[set]?.map (Answer.number ·.count, h)
  | empty set => (ssetEmpty set h).map (Answer.truth ·, h)
  | equal set1 set2 => (ssetEqual set1 set2 h).map (Answer.truth ·, h)

/-- The finite set `set1` becomes `S` : the answer is whether it changed. -/
def assign (sets : List (Finset E)) (set1 : ℕ) (old S : Finset E) : Answer × List (Finset E) :=
  (.truth (S ≠ old), sets.set set1 S)

/-- The operation on finite sets. -/
def Op.spec (sets : List (Finset E)) : Op E → Option (Answer × List (Finset E))
  | make => some (.number sets.length, sets ++ [∅])
  | copy set => do return (.number sets.length, sets ++ [← sets[set]?])
  | adjoin e set => do
    let S ← sets[set]?
    return assign sets set S (insert e S)
  | delete e set => do
    let S ← sets[set]?
    return assign sets set S (S.erase e)
  | union set1 set2 => do
    let S ← sets[set1]?
    return assign sets set1 S (S ∪ (← sets[set2]?))
  | intersection set1 set2 => do
    let S ← sets[set1]?
    return assign sets set1 S (S ∩ (← sets[set2]?))
  | difference set1 set2 => do
    let S ← sets[set1]?
    return assign sets set1 S (S \ (← sets[set2]?))
  | unionOfDifference set1 set2 set3 => do
    let S ← sets[set1]?
    return assign sets set1 S (S ∪ ((← sets[set2]?) \ (← sets[set3]?)))
  | member e set => do return (.truth (e ∈ (← sets[set]?)), sets)
  | count set => do return (.number (← sets[set]?).card, sets)
  | empty set => do return (.truth ((← sets[set]?) = ∅), sets)
  | equal set1 set2 => do return (.truth ((← sets[set1]?) = (← sets[set2]?)), sets)

/-- The answers to a sequence of operations, and where it ends. -/
def run {σ : Type} (step : σ → Op E → Option (Answer × σ)) : List (Op E) → σ →
    Option (List Answer × σ)
  | [], s => some ([], s)
  | op :: ops, s => do
    let (answer, s) ← step s op
    let (answers, s) ← run step ops s
    return (answer :: answers, s)

end Runs

end Sbcl.Ssets
