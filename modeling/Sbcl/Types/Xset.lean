import Sbcl.Lockless.SolistFixnum
import Sbcl.Numbers.Psxhash

/-!
# Sets of constants (code/xset.lisp)

* `Xset`, `Heap` : a small set is a list, a large one a hash table; sets and tables are objects;
* `addToXset`, `xsetUnion`, `xsetIntersection` : the operations that allocate or change a set;
* `xsetMemberP`, `xsetSubsetP`, `xsetEqual`, `xsetEltsHash` : the questions.

A table is the list of its keys in the order of `maphash`; the value of each is T. An operation on
lists that is called with a table, or the reverse, is `none`.
-/

namespace Sbcl.Xsets

/-- `+xset-list-size-limit+` -/
def xsetListSizeLimit : ℕ := 24

inductive Data (α : Type) where
  | list (elts : List α)
  | table (address : ℕ)
deriving DecidableEq

/-- The number of the items of a list, or the stable hashes. -/
inductive Extra where
  | index (n : ℕ)
  | hashes (vector : List (BitVec 63))
deriving DecidableEq

structure Xset (α : Type) where
  data : Data α
  extra : Extra
deriving DecidableEq

structure Heap (α : Type) where
  xsets : List (Xset α)
  tables : List (List α)
deriving DecidableEq

section Operations

variable {α : Type} [DecidableEq α]

/-- `(setf (gethash elt table) t)` -/
def puthash (table : List α) (elt : α) : List α := if elt ∈ table then table else table ++ [elt]

/-- `!new-xset` -/
def newXset (data : Data α) (extra : Extra) (h : Heap α) : ℕ × Heap α :=
  (h.xsets.length, { h with xsets := h.xsets ++ [⟨data, extra⟩] })

def allocXset (h : Heap α) : ℕ × Heap α := newXset (.list []) (.index 0) h

def xsetCount (h : Heap α) (xset : Xset α) : Option ℕ :=
  match xset.data with
  | .list _ =>
    match xset.extra with
    | .index n => some n
    | .hashes vector => some vector.length
  | .table t => (h.tables[t]?).map List.length

/-- What `map-xset` goes over. -/
def elements (h : Heap α) : Data α → Option (List α)
  | .list data => some data
  | .table t => h.tables[t]?

/-- `member` or `gethash`, whichever the data need. -/
def hasElt (h : Heap α) (data : Data α) (elt : α) : Option Bool :=
  (elements h data).map fun l => decide (elt ∈ l)

def addToXset (elt : α) (a : ℕ) (h : Heap α) : Option (Heap α) := do
  let xset ← h.xsets[a]?
  match xset.data with
  | .table t =>
    let table ← h.tables[t]?
    some { h with tables := h.tables.set t (puthash table elt) }
  | .list data =>
    if elt ∈ data then some h
    else
      match xset.extra with
      | .hashes _ => none
      | .index n =>
        if n < xsetListSizeLimit then
          some { h with xsets := h.xsets.set a ⟨.list (elt :: data), .index (n + 1)⟩ }
        else
          let table := data.foldl puthash (puthash [] elt)
          some
            { xsets := h.xsets.set a ⟨.table h.tables.length, .index 0⟩
              tables := h.tables ++ [table] }

/-- The two sets with the smaller one first, and `b` where they are of one size. -/
def smallLarge (a b : ℕ) (h : Heap α) : Option (ℕ × ℕ) := do
  let m ← xsetCount h (← h.xsets[a]?)
  let n ← xsetCount h (← h.xsets[b]?)
  some (if m < n then (a, b) else (b, a))

def xsetIntersection (a b : ℕ) (h : Heap α) : Option (ℕ × Heap α) := do
  let (intersection, h) := allocXset h
  let (source, lookup) ← smallLarge a b h
  let data := (← h.xsets[lookup]?).data
  let elts ← elements h (← h.xsets[source]?).data
  let h ← elts.foldlM (fun h elt =>
    do if ← hasElt h data elt then addToXset elt intersection h else some h) h
  some (intersection, h)

def xsetUnion (a b : ℕ) (h : Heap α) : Option (ℕ × Heap α) := do
  let (small, large) ← smallLarge a b h
  let data := (← h.xsets[large]?).data
  let smallData := (← h.xsets[small]?).data
  match data with
  | .table t =>
    let keys ← h.tables[t]?
    let elts ← elements h smallData
    if elts.countP (fun x => decide (x ∉ keys)) = 0 then some (large, h)
    else
      let new := keys.foldl puthash (elts.foldl puthash [])
      some (newXset (.table h.tables.length) (.index 0) { h with tables := h.tables ++ [new] })
  | .list elts =>
    match smallData with
    | .table _ => none
    | .list smallElts =>
      let (xset, h') := newXset (.list elts) (.index (← xsetCount h (← h.xsets[large]?))) h
      let h' ← smallElts.foldlM (fun h elt => addToXset elt xset h) h'
      -- the lists are one object exactly when nothing was added in front
      some (if (← h'.xsets[xset]?).data = .list elts then large else xset, h')

def xsetMemberP (elt : α) (a : ℕ) (h : Heap α) : Option Bool := do hasElt h (← h.xsets[a]?).data elt

/-- The loop of `xset-subset-p`, which returns at the first element that is missing. -/
def subsetLoop (h : Heap α) (data : Data α) : List α → Option Bool
  | [] => some true
  | elt :: elts => do if ← hasElt h data elt then subsetLoop h data elts else some false

def xsetSubsetP (a b : ℕ) (h : Heap α) : Option Bool := do
  let xset1 ← h.xsets[a]?
  let xset2 ← h.xsets[b]?
  if (← xsetCount h xset1) ≤ (← xsetCount h xset2) then
    subsetLoop h xset2.data (← elements h xset1.data)
  else some false

/-- `xset=` -/
def xsetEqual (a b : ℕ) (h : Heap α) : Option Bool := do
  let xset1 ← h.xsets[a]?
  let xset2 ← h.xsets[b]?
  if (← xsetCount h xset1) = (← xsetCount h xset2) then
    match xset1.data, xset2.data with
    | .list data1, .list data2 => some (data1.all fun x => decide (x ∈ data2))
    | .list _, .table _ => none
    | .table t, .table t' => subsetLoop h (.table t') (← h.tables[t]?)
    | .table t, .list _ => if h.tables[t]? = some [] then some true else none
  else some false

/-- The fixnum `h` as a word, with its tag. -/
def wordBits (h : BitVec 63) : Word := h.setWidth 64 <<< 1

/-- `xset-elts-hash`, where the elements of some types only have a hash. -/
def xsetEltsHash (eqlHash : α → Option (BitVec 63)) (a : ℕ) (h : Heap α) :
    Option Lockless.Hash := do
  let xset ← h.xsets[a]?
  let c ← xsetCount h xset
  let start := BitVec.ofInt 63 (Numbers.mix c c)
  let sum ←
    match xset.extra with
    | .hashes vector => some (vector.foldl (· + ·) start)
    | .index _ => (← elements h xset.data).foldlM (fun sum x => do some ((← eqlHash x) + sum)) start
  some (Lockless.murmurHashWordPosFixnum (wordBits sum))

/-! ## Programs -/

inductive Op (α : Type) where
  | alloc
  | add (elt : α) (a : ℕ)
  | union (a b : ℕ)
  | intersection (a b : ℕ)

def Op.run : Op α → Heap α → Option (Heap α)
  | .alloc, h => some (allocXset h).2
  | .add elt a, h => addToXset elt a h
  | .union a b, h => (xsetUnion a b h).map Prod.snd
  | .intersection a b, h => (xsetIntersection a b h).map Prod.snd

/-- The operation is called with sets. -/
def Op.Valid (h : Heap α) : Op α → Prop
  | .alloc => True
  | .add _ a => a < h.xsets.length
  | .union a b | .intersection a b => a < h.xsets.length ∧ b < h.xsets.length

instance (h : Heap α) : ∀ op : Op α, Decidable (op.Valid h)
  | .alloc => isTrue trivial
  | .add _ a => inferInstanceAs (Decidable (a < h.xsets.length))
  | .union a b | .intersection a b =>
    inferInstanceAs (Decidable (a < h.xsets.length ∧ b < h.xsets.length))

/-- The heap after operations that are called with sets, from a heap without any. -/
def program (ops : List (Op α)) : Option (Heap α) :=
  ops.foldlM (fun h op => if op.Valid h then op.run h else none) ⟨[], []⟩

end Operations

end Sbcl.Xsets
