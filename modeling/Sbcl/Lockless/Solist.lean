import Mathlib.Data.Prod.Lex
import Mathlib.Data.String.Basic
import Sbcl.Object
import Sbcl.Lockless.Lflist

/-!
# Split-ordered lists (code/solist.lisp, code/lockfree-list.lisp)

A set or map kept in one lock-free list, sorted by hash and then by key, with a vector of bins that
point into it. A bin holds a dummy node, whose hash is even; the hash of a node with a key is odd.

* `SoNode` : `node-hash` and `so-key` of a node, with what the hash function promises about them;
* `Bins` : a vector of bins and its shift; `SoTable` : the table;
* `withBinStep`, `soExpandBins`, `soInsertStep`, `soDeleteStep`, `soFindStep` : the operations, by
  atomic steps on a next pointer, a bin, the count, the threshold or the slot of the bins;
* `soMachine` : any number of threads on one table.

The values of a map are left out, as no operation here looks at them. The finder has a hash function
of its own, as the one for fixnums does.
-/

namespace Sbcl.Lockless

open MarkedList Nat

def hashNbits : Nat := nPositiveFixnumBits

/-- `(and fixnum unsigned-byte)`. -/
abbrev Hash := { h : Nat // h < 2 ^ hashNbits }

def maskedHash (h : Hash) : Hash := ⟨h.1 ||| 1, or_lt_two_pow h.2 (by decide)⟩

theorem maskedHash_odd (h : Hash) : (maskedHash h).1 % 2 = 1 := by
  simp [maskedHash]

/-! ## Nodes -/

section Node
variable {K : Type} {hashfun : K → Hash}

/-- A dummy node has an even hash and no key, and the hash of an ordinary node is that of its key.
-/
structure IsNode (hashfun : K → Hash) (hash : Nat) (key : WithBot K) : Prop where
  hash_lt : hash < 2 ^ hashNbits
  dummy : key = ⊥ → hash % 2 = 0
  ordinary : ∀ k : K, key = k → hash = (maskedHash (hashfun k)).1

/-- The order is primarily that of the hashes, with the keys as tie breakers. -/
abbrev SoNode (hashfun : K → Hash) :=
  { p : Nat ×ₗ WithBot K // IsNode hashfun (ofLex p).1 (ofLex p).2 }

def nodeHash (n : SoNode hashfun) : Nat := (ofLex n.1).1

def soKey (n : SoNode hashfun) : WithBot K := (ofLex n.1).2

def dummyNodeP (n : SoNode hashfun) : Bool := nodeHash n % 2 == 0

def makeSoDummyNode (hashfun : K → Hash) (hash : Nat) (hlt : hash < 2 ^ hashNbits)
    (heven : hash % 2 = 0) : SoNode hashfun :=
  ⟨toLex (hash, ⊥), hlt, fun _ => heven, fun _ hk => absurd hk.symm WithBot.coe_ne_bot⟩

def makeSoNode (hashfun : K → Hash) (key : K) : SoNode hashfun :=
  ⟨toLex ((maskedHash (hashfun key)).1, (key : WithBot K)), (maskedHash (hashfun key)).2,
    fun hk => absurd hk WithBot.coe_ne_bot, fun _ hk => by rw [← WithBot.coe_inj.mp hk]; rfl⟩

variable [LinearOrder K]

theorem soNode_lt_iff {p q : SoNode hashfun} :
    p < q ↔ nodeHash p < nodeHash q ∨ nodeHash p = nodeHash q ∧ soKey p < soKey q := Prod.Lex.lt_iff

theorem soNode_le_iff {p q : SoNode hashfun} :
    p ≤ q ↔ nodeHash p < nodeHash q ∨ nodeHash p = nodeHash q ∧ soKey p ≤ soKey q := Prod.Lex.le_iff

/-- `lfl-search/fixnum` compares nothing but the hash. -/
def dummyTarget (hashfun : K → Hash) (hash : Nat) : Target (SoNode hashfun) where
  lt this := decide (nodeHash this < hash)
  eq right := nodeHash right == hash
  lower p p' hp h := by
    rw [decide_eq_true_eq] at h ⊢
    rcases soNode_le_iff.mp hp with hlt | ⟨heq, _⟩
    · exact Nat.lt_trans hlt h
    · rw [heq]
      exact h

/-- `%so-search/addr` and its siblings; a dummy node never has the hash of a key. -/
def soTarget (hashfun : K → Hash) (hash : Nat) (key : K) : Target (SoNode hashfun) where
  lt this := decide (nodeHash this < hash ∨ nodeHash this = hash ∧ soKey this < key)
  eq right := !dummyNodeP right && decide (soKey right = key)
  lower p p' hp h := by
    rw [decide_eq_true_eq] at h ⊢
    rcases soNode_le_iff.mp hp with hlt | ⟨heq, hle⟩
    · rcases h with h | ⟨h, _⟩
      · exact Or.inl (Nat.lt_trans hlt h)
      · exact Or.inl (Nat.lt_of_lt_of_eq hlt h)
    · rw [heq]
      exact h.imp_right fun ⟨h, hk⟩ => ⟨h, lt_of_le_of_lt hle hk⟩

end Node

/-! ## Bins -/

/-- A vector of bins and the shift that turns a hash into an index. -/
structure Bins where
  shift : Nat
  shift_pos : 0 < shift
  shift_lt : shift < hashNbits
  /-- A bin that holds the unbound marker is `none`. -/
  bin : Nat → Option Nat

namespace Bins

/-- The length of the vector. -/
def length (b : Bins) : Nat := 2 ^ (hashNbits - b.shift)

def index (b : Bins) (hash : Hash) : Nat := hash.1 >>> b.shift

/-- The hash of the dummy node of a bin. -/
def dummyHash (b : Bins) (i : Nat) : Nat := i <<< b.shift

def setBin (b : Bins) (i n : Nat) : Bins := { b with bin := Function.update b.bin i (some n) }

theorem index_lt (b : Bins) (hash : Hash) : b.index hash < b.length := by
  have hlt := hash.2
  rw [index, length, shiftRight_eq_div_pow]
  refine Nat.div_lt_of_lt_mul ?_
  rw [← Nat.pow_add, Nat.add_sub_cancel' (Nat.le_of_lt b.shift_lt)]
  exact hlt

theorem dummyHash_lt (b : Bins) {i : Nat} (hi : i < b.length) : b.dummyHash i < 2 ^ hashNbits := by
  rw [dummyHash, shiftLeft_eq]
  calc i * 2 ^ b.shift < b.length * 2 ^ b.shift :=
    Nat.mul_lt_mul_of_pos_right hi (Nat.two_pow_pos _)
    _ = 2 ^ hashNbits := by rw [length, ← Nat.pow_add, Nat.sub_add_cancel (Nat.le_of_lt b.shift_lt)]

theorem dummyHash_even (b : Bins) (i : Nat) : b.dummyHash i % 2 = 0 := by
  obtain ⟨s, hs⟩ := exists_eq_succ_of_ne_zero (Nat.ne_of_gt b.shift_pos)
  rw [dummyHash, hs, shiftLeft_succ, mul_mod_right]

theorem dummyHash_index_le (b : Bins) (hash : Hash) : b.dummyHash (b.index hash) ≤ hash.1 := by
  rw [dummyHash, index, shiftLeft_eq, shiftRight_eq_div_pow]
  exact div_mul_le_self _ _

theorem dummyHash_strictMono (b : Bins) {i j : Nat} (hij : i < j) :
    b.dummyHash i < b.dummyHash j := by
  rw [dummyHash, dummyHash, shiftLeft_eq, shiftLeft_eq]
  exact Nat.mul_lt_mul_of_pos_right hij (Nat.two_pow_pos _)

@[simp] theorem dummyHash_zero (b : Bins) : b.dummyHash 0 = 0 := zero_shiftLeft _

@[simp] theorem setBin_shift (b : Bins) (i n : Nat) : (b.setBin i n).shift = b.shift := rfl

@[simp] theorem setBin_self (b : Bins) (i n : Nat) : (b.setBin i n).bin i = some n := by
  simp [setBin]

theorem setBin_of_ne (b : Bins) {i j : Nat} (n : Nat) (hij : j ≠ i) :
    (b.setBin i n).bin j = b.bin j := by
  simp [setBin, hij]

/-- Twice as many bins; half of them are `new`. -/
def doubled (b : Bins) (hshift : 1 < b.shift) (new : Nat → Option Nat) : Bins where
  shift := b.shift - 1
  shift_pos := Nat.sub_pos_of_lt hshift
  shift_lt := Nat.lt_of_le_of_lt (sub_le _ _) b.shift_lt
  bin := new

@[simp] theorem doubled_shift (b : Bins) (hshift : 1 < b.shift) (new : Nat → Option Nat) :
    (b.doubled hshift new).shift = b.shift - 1 := rfl

@[simp] theorem doubled_bin (b : Bins) (hshift : 1 < b.shift) (new : Nat → Option Nat) :
    (b.doubled hshift new).bin = new := rfl

theorem doubled_length (b : Bins) (hshift : 1 < b.shift) (new : Nat → Option Nat) :
    (b.doubled hshift new).length = 2 * b.length := by
  have hlt := b.shift_lt
  have hexp : hashNbits - (b.shift - 1) = hashNbits - b.shift + 1 := by omega
  rw [length, length, doubled_shift, hexp, Nat.pow_succ, Nat.mul_comm]

theorem doubled_dummyHash (b : Bins) (hshift : 1 < b.shift) (new : Nat → Option Nat) (i : Nat) :
    (b.doubled hshift new).dummyHash (2 * i) = b.dummyHash i := by
  have hexp : 2 ^ b.shift = 2 * 2 ^ (b.shift - 1) := by
    rw [← Nat.pow_succ', succ_eq_add_one, Nat.sub_add_cancel b.shift_pos]
  rw [dummyHash, dummyHash, doubled_shift, shiftLeft_eq, shiftLeft_eq, hexp,
    Nat.mul_comm 2 i, Nat.mul_assoc]

end Bins

section Table
variable {K : Type} [LinearOrder K] {hashfun : K → Hash}

/-- The vectors of bins that were ever in the table stay in memory; `bins` is the one in the slot.
-/
structure SoTable (hashfun : K → Hash) where
  heap : Heap (SoNode hashfun)
  vectors : Nat → Bins
  nvectors : Nat
  bins : Nat
  count : Nat
  threshold : Nat
  eltsPerBin : Nat

def soHead : Nat := 0

/-- `%make-so-list`: two bins, of which the first is initialized. -/
def makeSoList (hashfun : K → Hash) (eltsPerBin : Nat) : SoTable hashfun where
  heap := { pos := fun _ => makeSoDummyNode hashfun 0 (by decide) (zero_mod 2), next := fun _ => ⟨.tail, false⟩, top := 1 }
  vectors _ :=
    { shift := hashNbits - 1, shift_pos := by decide, shift_lt := by decide,
      bin := fun i => if i = 0 then some soHead else none }
  nvectors := 1
  bins := 0
  count := 0
  threshold := 2 * eltsPerBin
  eltsPerBin := eltsPerBin

namespace SoTable

def setBin (t : SoTable hashfun) (b i n : Nat) : SoTable hashfun :=
  { t with vectors := Function.update t.vectors b ((t.vectors b).setBin i n) }

/-- A new vector of bins, put into the slot. -/
def publish (t : SoTable hashfun) (b : Bins) : SoTable hashfun :=
  { t with vectors := Function.update t.vectors t.nvectors b, nvectors := t.nvectors + 1, bins := t.nvectors }

end SoTable

inductive WithBinPc where
  | readBins
  | readBin (bins : Nat)
  /-- `find-if-not` from the end: the bins from `below` on are uninitialized. -/
  | scan (bins below : Nat)
  | insertDummy (bins start : Nat) (pc : SearchPc)
  | storeBin (bins node : Nat)
  deriving DecidableEq

/-- `%so-insert/dummy` for the bin of a hash. -/
def soInsertDummy (b : Bins) (hash : Hash) (start : Nat) (h : Heap (SoNode hashfun))
    (pc : SearchPc) : Heap (SoNode hashfun) × Status SearchPc (Nat × Bool) :=
  insertStep (dummyTarget hashfun (b.dummyHash (b.index hash)))
    (makeSoDummyNode hashfun _ (b.dummyHash_lt (b.index_lt hash)) (b.dummyHash_even _)) start h pc

/-- `with-bin` and `initialize-bin`; returns the start node and the bins. -/
def withBinStep (hash : Hash) (t : SoTable hashfun) :
    WithBinPc → SoTable hashfun × Status WithBinPc (Nat × Nat)
  | .readBins => (t, .running (.readBin t.bins))
  | .readBin b =>
    let index := (t.vectors b).index hash
    match (t.vectors b).bin index with
    | some start => (t, .returned (start, b))
    | none => (t, .running (.scan b index))
  -- the first bin is always initialized
  | .scan b 0 => (t, .running (.scan b 0))
  | .scan b (i + 1) =>
    match (t.vectors b).bin i with
    | some start => (t, .running (.insertDummy b start .searchAgain))
    | none => (t, .running (.scan b i))
  | .insertDummy b start pc =>
    let (h', s) := soInsertDummy (t.vectors b) hash start t.heap pc
    ({ t with heap := h' },
      match s with
      | .running pc' => .running (.insertDummy b start pc')
      | .returned (node, _) => .running (.storeBin b node))
  | .storeBin b node =>
    let index := (t.vectors b).index hash
    match (t.vectors b).bin index with
    | some old => (t, .returned (old, b))
    | none => (t.setBin b index node, .returned (node, b))

inductive ExpandPc where
  | readThreshold
  | casThreshold (curThreshold : Nat)
  | copy (i : Nat) (new : Nat → Option Nat)
  | install (new : Nat → Option Nat)

def soExpandBins (b : Nat) (t : SoTable hashfun) : ExpandPc → SoTable hashfun × Status ExpandPc Unit
  | .readThreshold =>
    if (t.vectors b).shift = 1 then (t, .returned ())
    else if 2 * (t.vectors b).length * t.eltsPerBin > t.threshold then
      (t, .running (.casThreshold t.threshold))
    else (t, .returned ())
  | .casThreshold curThreshold =>
    if t.threshold = curThreshold then
      ({ t with threshold := 2 * (t.vectors b).length * t.eltsPerBin },
        .running (.copy 0 fun _ => none))
    else (t, .returned ())
  | .copy i new =>
    if i < (t.vectors b).length then
      (t, .running (.copy (i + 1) (Function.update new (i * 2) ((t.vectors b).bin i))))
    else (t, .running (.install new))
  | .install new =>
    if hshift : 1 < (t.vectors b).shift then
      if t.bins = b then (t.publish ((t.vectors b).doubled hshift new),
        .returned ()) else (t, .returned ())
    else (t, .returned ())

/-! ### The operations -/

/-- The count is a machine word. -/
def atomicIncf (count : Nat) : Nat := (count + 1) % 2 ^ nWordBits

def atomicDecf (count : Nat) : Nat := (count + (2 ^ nWordBits - 1)) % 2 ^ nWordBits

inductive SoInsertPc where
  | withBin (pc : WithBinPc)
  | put (start bins : Nat) (pc : SearchPc)
  | incf (bins node : Nat)
  | checkThreshold (bins node count : Nat)
  | expand (bins node : Nat) (pc : ExpandPc)

def soPut (key : K) (start : Nat) (h : Heap (SoNode hashfun)) (pc : SearchPc) :
    Heap (SoNode hashfun) × Status SearchPc (Nat × Bool) :=
  insertStep (soTarget hashfun (maskedHash (hashfun key)).1 key) (makeSoNode hashfun key) start h pc

/-- `so-insert`. -/
def soInsertStep (key : K) (t : SoTable hashfun) : SoInsertPc →
    SoTable hashfun × Status SoInsertPc (Nat × Bool)
  | .withBin pc =>
    let (t', s) := withBinStep (maskedHash (hashfun key)) t pc
    (t', .running
      (match s with
      | .running pc' => .withBin pc'
      | .returned (start, b) => .put start b .searchAgain))
  | .put start b pc =>
    let (h', s) := soPut key start t.heap pc
    ({ t with heap := h' },
      match s with
      | .running pc' => .running (.put start b pc')
      | .returned (node, true) => .returned (node, true)
      | .returned (node, false) => .running (.incf b node))
  | .incf b node => ({ t with count := atomicIncf t.count },
    .running (.checkThreshold b node t.count))
  | .checkThreshold b node count =>
    (t, if count > t.threshold then .running (.expand b node .readThreshold)
      else .returned (node, false))
  | .expand b node pc =>
    let (t', s) := soExpandBins b t pc
    (t', match s with
      | .running pc' => .running (.expand b node pc')
      | .returned () => .returned (node, false))

inductive SoDeletePc where
  | withBin (pc : WithBinPc)
  | delete (start : Nat) (pc : DeletePc)
  | decf

/-- `so-delete`, with the deleter of the table. -/
def soDeleteStep (key : K) (t : SoTable hashfun) : SoDeletePc →
    SoTable hashfun × Status SoDeletePc Bool
  | .withBin pc =>
    let (t', s) := withBinStep (maskedHash (hashfun key)) t pc
    (t', .running
      (match s with
      | .running pc' => .withBin pc'
      | .returned (start, _) => .delete start (.search .searchAgain)))
  | .delete start pc =>
    let (h', s) :=
      deleteStep (soTarget hashfun (maskedHash (hashfun key)).1 key) start start t.heap pc
    ({ t with heap := h' },
      match s with
      | .running pc' => .running (.delete start pc')
      | .returned true => .running .decf
      | .returned false => .returned false)
  | .decf => ({ t with count := atomicDecf t.count }, .returned true)

inductive SoFindPc where
  | withBin (pc : WithBinPc)
  | search (start : Nat) (pc : SearchPc)

/-- The finder of the table, with the hash it computes. -/
def soFindStep (hash : Hash) (key : K) (t : SoTable hashfun) :
    SoFindPc → SoTable hashfun × Status SoFindPc (Option Nat)
  | .withBin pc =>
    let (t', s) := withBinStep (maskedHash hash) t pc
    (t', .running
      (match s with
      | .running pc' => .withBin pc'
      | .returned (start, _) => .search start .searchAgain))
  | .search start pc =>
    let (h', s) := findStep (soTarget hashfun (maskedHash hash).1 key) start t.heap pc
    ({ t with heap := h' },
      match s with
      | .running pc' => .running (.search start pc')
      | .returned r => .returned r)

/-! ### Threads -/

inductive SoThread (K : Type) where
  | idle
  | insert (key : K) (pc : SoInsertPc)
  | delete (key : K) (pc : SoDeletePc)
  | find (key : K) (pc : SoFindPc)
  | inserted (key : K) (r : Nat × Bool)
  | deleted (key : K) (r : Bool)
  | foundNode (key : K) (r : Option Nat)
  /-- The finder has a negative index and reads outside of the vector of bins. -/
  | outside (key : K)

namespace SoThread

def Busy : SoThread K → Prop
  | .insert _ _ | .delete _ _ | .find _ _ | .outside _ => True
  | _ => False

def ofInsert (key : K) : Status SoInsertPc (Nat × Bool) → SoThread K
  | .running pc => .insert key pc
  | .returned r => .inserted key r

def ofDelete (key : K) : Status SoDeletePc Bool → SoThread K
  | .running pc => .delete key pc
  | .returned r => .deleted key r

def ofFind (key : K) : Status SoFindPc (Option Nat) → SoThread K
  | .running pc => .find key pc
  | .returned r => .foundNode key r

end SoThread

inductive SoInvoke : SoThread K → Prop
  | insert (key : K) : SoInvoke (.insert key (.withBin .readBins))
  | delete (key : K) : SoInvoke (.delete key (.withBin .readBins))
  | find (key : K) : SoInvoke (.find key (.withBin .readBins))

/-- The finder computes its hash with `findHash`, which is `none` when that is negative. -/
def soStep (findHash : K → Option Hash) (t : SoTable hashfun) : SoThread K →
    SoTable hashfun × SoThread K
  | .insert key pc =>
    let (t', s) := soInsertStep key t pc
    (t', .ofInsert key s)
  | .delete key pc =>
    let (t', s) := soDeleteStep key t pc
    (t', .ofDelete key s)
  | .find key pc =>
    match findHash key with
    | none => (t, .outside key)
    | some hash =>
      let (t', s) := soFindStep hash key t pc
      (t', .ofFind key s)
  | l => (t, l)

def soMachine (hashfun : K → Hash) (findHash : K → Option Hash) :
    Interleaving.Machine (SoTable hashfun) (SoThread K) where
  Init t := ∃ eltsPerBin, t = makeSoList hashfun eltsPerBin
  idle := .idle
  Busy := SoThread.Busy
  rest := id
  Invoke _ := SoInvoke
  Step t l t' l' := t' = (soStep findHash t l).1 ∧ l' = (soStep findHash t l).2

end Table

/-- `multiplicative-hash`, of an address. -/
def multiplicativeHash (x : Word) : Hash :=
  ⟨(x * 11400714819323198485).toNat >>> (1 + nFixnumTagBits), by
    have h := (x * 11400714819323198485).isLt
    rw [shiftRight_eq_div_pow]
    exact Nat.div_lt_of_lt_mul h⟩

/-- `make-so-set/addr` and `make-so-map/addr`; a key is its address. -/
def soAddrMachine : Interleaving.Machine (SoTable multiplicativeHash) (SoThread Word) :=
  soMachine multiplicativeHash fun key => some (multiplicativeHash key)

/-- `make-so-set/string` and `make-so-map/string`; `sxhash` is the hash of strings. -/
def soStringMachine (sxhash : String → Hash) :
    Interleaving.Machine (SoTable sxhash) (SoThread String) :=
  soMachine sxhash fun key => some (sxhash key)

end Sbcl.Lockless
