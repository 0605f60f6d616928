import Sbcl.Packages.SymbolTable

/-!
# Symbol tables are finite sets (code/target-package.lisp)

* `Sized` : a prime number of cells, of which a probe sequence visits each;
* `Table` : the counts, and that each symbol is met before a cell that was never used;
* `ins_spec` : Robin Hood insertion ends, and behind each symbol are cells at least as far from
  their starts;
* `table_run` : lookup in every table of a run.
-/

namespace Sbcl.SymbolTables

open Sbcl.Probing
open List (count countP_cons count_cons count_pos_iff getElem?_eq_getElem getElem_of_mem
  length_replicate length_set map_cons mem_of_getElem? replicate sum_cons)
open Sbcl.Packages (Sym chooseGoodSize chooseGoodSize_prime)

variable {N : Type}

/-! ## Cells -/

section Cells

variable {cells : List (Cell N)} {i : ℕ} {old c : Cell N}

theorem countP_set {α : Type} (p : α → Bool) {old c : α} : ∀ {cells : List α} {i : ℕ},
    cells[i]? = some old →
    (cells.set i c).countP p + (if p old then 1 else 0) = cells.countP p + (if p c then 1 else 0)
  | x :: cells, 0, h => by
    rw [List.getElem?_cons_zero, Option.some.injEq] at h
    subst h
    rw [List.set_cons_zero, countP_cons, countP_cons]
    omega
  | x :: cells, i + 1, h => by
    rw [List.getElem?_cons_succ] at h
    have ih := @countP_set α p old c cells i h
    rw [List.set_cons_succ, countP_cons, countP_cons]
    omega

theorem sum_set {α : Type} (f : α → ℕ) {old c : α} : ∀ {cells : List α} {i : ℕ},
    cells[i]? = some old → ((cells.set i c).map f).sum + f old = (cells.map f).sum + f c
  | x :: cells, 0, h => by
    rw [List.getElem?_cons_zero, Option.some.injEq] at h
    subst h
    rw [List.set_cons_zero, map_cons, map_cons, sum_cons, sum_cons]
    omega
  | x :: cells, i + 1, h => by
    rw [List.getElem?_cons_succ] at h
    have ih := @sum_set α f old c cells i h
    rw [List.set_cons_succ, map_cons, map_cons, sum_cons, sum_cons]
    omega

theorem eq_of_count_le_one {α : Type} [BEq α] [LawfulBEq α] {x : α} : ∀ {cells : List α} {i j : ℕ},
    cells.count x ≤ 1 → cells[i]? = some x → cells[j]? = some x → i = j
  | y :: cells, 0, 0, _, _, _ => rfl
  | y :: cells, i + 1, j + 1, h, hi, hj => by
    rw [count_cons] at h
    exact congrArg (· + 1) (eq_of_count_le_one (by omega) hi hj)
  | y :: cells, 0, j + 1, h, hi, hj => by
    rw [List.getElem?_cons_zero, Option.some.injEq] at hi
    have hmem : 0 < cells.count x := count_pos_iff.mpr (mem_of_getElem? hj)
    rw [count_cons, hi, if_pos (by simp)] at h
    omega
  | y :: cells, i + 1, 0, h, hi, hj => by
    rw [List.getElem?_cons_zero, Option.some.injEq] at hj
    have hmem : 0 < cells.count x := count_pos_iff.mpr (mem_of_getElem? hi)
    rw [count_cons, hj, if_pos (by simp)] at h
    omega

theorem getElem?_set_self {α : Type} {cells : List α} {i : ℕ} {old c : α}
    (h : cells[i]? = some old) : (cells.set i c)[i]? = some c := by
  rw [List.getElem?_set, if_pos rfl, if_pos (List.getElem?_eq_some_iff.mp h).1]

theorem getElem?_set_of_ne {α : Type} {cells : List α} {i j : ℕ} {c : α} (h : j ≠ i) :
    (cells.set i c)[j]? = cells[j]? := by
  rw [List.getElem?_set, if_neg h.symm]

theorem used_set (hc : c ≠ .unused) {j : ℕ} (h : cells[j]? ≠ some .unused) :
    (cells.set i c)[j]? ≠ some .unused := by
  rw [List.getElem?_set]
  split
  · split
    · simpa using hc
    · simp
  · exact h

end Cells

/-! ## Hashes -/

/-- The number of cells and the magic of a table. -/
structure Sized (hashing : Hashing N) (magic : Magic) (n : ℕ) : Prop where
  prime : n.Prime
  odd : n % 2 = 1
  magic : magic = makeSymtblMagic hashing n

/-- The cells of the probe sequence of a name. -/
def cellAt (hashing : Hashing N) (magic : Magic) (n : ℕ) (name : N) (k : ℕ) : ℕ :=
  position n (hash1 magic (hashing.nameHash name) n) (hash2 magic (hashing.nameHash name)) k

namespace Sized

variable {hashing : Hashing N} {magic : Magic} {n : ℕ}

theorem three_le (h : Sized hashing magic n) : 3 ≤ n := by
  have htwo := h.prime.two_le
  have hodd := h.odd
  omega

theorem pos (h : Sized hashing magic n) : 0 < n := h.prime.pos

theorem hash1_lt (h : Sized hashing magic n) (nameHash : ℕ) : hash1 magic nameHash n < n := by
  unfold hash1
  split
  · exact Nat.mod_lt _ h.pos
  · unfold fastrem32
    have hmod : (nameHash &&& magic.hash1Mask) * magic.hash1C % 2 ^ 32 < 2 ^ 32 :=
      Nat.mod_lt _ (by norm_num)
    exact Nat.div_lt_of_lt_mul (Nat.mul_lt_mul_of_pos_right hmod h.pos)

theorem hash2_lt (h : Sized hashing magic n) (nameHash : ℕ) : hash2 magic nameHash < n := by
  have hthree := h.three_le
  rw [h.magic]
  unfold makeSymtblMagic
  by_cases hn : n = 3
  · rw [if_pos hn]
    show 1 + (0 &&& nameHash) < n
    rw [Nat.zero_and]
    omega
  rw [if_neg hn]
  have hand : (2 ^ Nat.log2 n - 1) &&& nameHash ≤ 2 ^ Nat.log2 n - 1 := Nat.and_le_left
  have hself : 2 ^ Nat.log2 n ≤ n := Nat.log2_self_le (by omega)
  -- A power of two is not odd.
  have hne : 2 ^ Nat.log2 n ≠ n := by
    intro heq
    have hodd := h.odd
    rw [← heq] at hodd
    have hlog : Nat.log2 n ≠ 0 := by
      intro hzero
      rw [hzero] at heq
      omega
    obtain ⟨k, hk⟩ := Nat.exists_eq_succ_of_ne_zero hlog
    rw [hk, Nat.pow_succ] at hodd
    omega
  show 1 + ((2 ^ Nat.log2 n - 1) &&& nameHash) < n
  omega

theorem coprime (h : Sized hashing magic n) (nameHash : ℕ) : (hash2 magic nameHash).Coprime n := by
  have hne : hash2 magic nameHash ≠ 0 := by
    unfold hash2
    omega
  exact (Nat.coprime_of_lt_prime hne (h.hash2_lt nameHash) h.prime).symm

theorem cellAt_lt (h : Sized hashing magic n) (name : N) (k : ℕ) :
    cellAt hashing magic n name k < n := position_lt h.pos k

theorem cellAt_zero (h : Sized hashing magic n) (name : N) :
    cellAt hashing magic n name 0 = hash1 magic (hashing.nameHash name) n :=
  position_zero (h.hash1_lt _)

theorem exists_cellAt (h : Sized hashing magic n) (name : N) {i : ℕ} (hi : i < n) :
    ∃ k < n, cellAt hashing magic n name k = i := exists_position (h.coprime _) hi

theorem exists_first (h : Sized hashing magic n) (name : N) (test : ℕ → Prop) {i : ℕ} (hi : i < n)
    (htest : test i) :
    ∃ k < n, test (cellAt hashing magic n name k) ∧ ∀ j < k,
      ¬ test (cellAt hashing magic n name j) :=
  Probing.exists_first (h.coprime _) hi htest

end Sized

theorem physicalSize_spec (size : ℕ) :
    (physicalSize size).Prime ∧ physicalSize size % 2 = 1 ∧
    (size * 4 + 2) / 3 ≤ physicalSize size := by
  have hodd : ((size * 4 + 2) / 3 ||| 1) % 2 = 1 := Nat.or_mod_two_eq_one.mpr (.inr rfl)
  obtain ⟨hprime, hle, hodd'⟩ := chooseGoodSize_prime hodd
  exact ⟨hprime, hodd', Nat.left_le_or.trans hle⟩

theorem sized_makeSymbolTable (hashing : Hashing N) (size : ℕ) :
    Sized hashing (makeSymbolTable hashing size).magic
      (makeSymbolTable hashing size).cells.length := by
  obtain ⟨hprime, hodd, -⟩ := physicalSize_spec size
  unfold makeSymbolTable
  simp only [length_replicate]
  exact ⟨hprime, hodd, rfl⟩

theorem sized_empty (hashing : Hashing N) :
    Sized hashing ⟨0, 0, 0⟩ (emptyCells : List (Cell N)).length :=
  ⟨Nat.prime_three, by simp [emptyCells], rfl⟩

/-! ## Lookup -/

section Lookup

variable [DecidableEq N] {hashing : Hashing N} {magic : Magic} {cells : List (Cell N)} {name : N}

/-- The probe goes on. -/
def Skips (name : N) (c : Option (Cell N)) : Prop :=
  c = some .deleted ∨ ∃ s : Sym N, c = some (.symbol s) ∧ s.name ≠ name

theorem probe_skip {h2 fuel index : ℕ} (h : Skips name cells[index]?) :
    probe hashing cells name h2 (fuel + 1) index = probe hashing cells name h2 fuel
      (if cells.length ≤ index + h2 then index + h2 - cells.length else index + h2) := by
  rw [probe]
  rcases h with h | ⟨s, h, hne⟩
  · rw [h]
  · rw [h]
    exact if_neg fun heq => hne heq.2

theorem next_eq {n index h2 : ℕ} (hindex : index < n) (hh2 : h2 < n) :
    (if n ≤ index + h2 then index + h2 - n else index + h2) = (index + h2) % n := by
  split
  · rename_i hle
    rw [Nat.mod_eq_sub_mod hle, Nat.mod_eq_of_lt (by omega)]
  · rename_i hlt
    rw [Nat.mod_eq_of_lt (by omega)]

theorem probe_cellAt (h : Sized hashing magic cells.length) {k : ℕ}
    (hskip : ∀ j < k, Skips name cells[cellAt hashing magic cells.length name j]?) :
    ∀ {l fuel : ℕ}, l + fuel = k →
    ∀ rest, probe hashing cells name (hash2 magic (hashing.nameHash name)) (fuel + rest)
        (cellAt hashing magic cells.length name l)
      = probe hashing cells name (hash2 magic (hashing.nameHash name)) rest
        (cellAt hashing magic cells.length name k)
  | l, 0, hl, rest => by
    rw [← hl, Nat.zero_add]
    rfl
  | l, fuel + 1, hl, rest => by
    have ih := @probe_cellAt h k hskip (l + 1) fuel (by omega) rest
    have hnext := next_eq (h.cellAt_lt name l) (h.hash2_lt (hashing.nameHash name))
    rw [Nat.add_right_comm, probe_skip (hskip l (by omega)), hnext, ← ih, cellAt,
      cellAt, position_succ]

/-- What a lookup ends at. -/
inductive Outcome (hashing : Hashing N) (magic : Magic) (cells : List (Cell N)) (name : N) :
  Option (Sym N × ℕ) → Prop
  | found {s : Sym N} {i : ℕ} : cells[i]? = some (.symbol s) → s.name = name →
    Outcome hashing magic cells name (some (s, i))
  | missed {k : ℕ} : cells[cellAt hashing magic cells.length name k]? = some .unused →
      (∀ j < k, Skips name cells[cellAt hashing magic cells.length name j]?) →
        Outcome hashing magic cells name none

/-- With a cell that was never used, a lookup ends. -/
theorem lookup_outcome {t : SymbolTable N} (h : Sized hashing t.magic t.cells.length)
    (hunused : Cell.unused ∈ t.cells)
    (name : N) : ∃ result, lookupSymbol hashing t name = some result ∧
      Outcome hashing t.magic t.cells name result := by
  obtain ⟨i, hi, hget⟩ := getElem_of_mem hunused
  have hstop : ¬ Skips name t.cells[i]? := by
    rw [getElem?_eq_getElem hi, hget]
    rintro (heq | ⟨s, heq, -⟩) <;> cases heq
  obtain ⟨k, hk, hstopk, hskip⟩ := h.exists_first name (fun i => ¬ Skips name t.cells[i]?) hi hstop
  have hskip' : ∀ j < k, Skips name t.cells[cellAt hashing t.magic t.cells.length name j]? := by
    intro j hj
    exact not_not.mp (hskip j hj)
  obtain ⟨rest, hrest⟩ := Nat.exists_eq_add_of_lt hk
  have hprobe := probe_cellAt h hskip' (Nat.zero_add k) (rest + 1)
  rw [h.cellAt_zero, ← Nat.add_assoc, ← hrest] at hprobe
  unfold lookupSymbol
  rw [hprobe, probe]
  have hlt := h.cellAt_lt name k
  cases hcell : t.cells[cellAt hashing t.magic t.cells.length name k]? with
  | none => exact absurd hlt (by simpa using List.getElem?_eq_none_iff.mp hcell)
  | some c =>
    rw [hcell] at hstopk
    cases c with
    | unused => exact ⟨none, rfl, .missed hcell hskip'⟩
    | deleted => exact absurd (.inl rfl) hstopk
    | symbol s =>
      have hname : s.name = name := by
        by_contra hne
        exact hstopk (.inr ⟨s, rfl, hne⟩)
      refine ⟨some (s, _), ?_, .found hcell hname⟩
      exact if_pos ⟨by rw [hname], hname⟩

end Lookup

/-! ## Tables -/

/-- The symbol in the cell is met before a cell that was never used. -/
def Reaches (hashing : Hashing N) (magic : Magic) (cells : List (Cell N)) (s : Sym N)
    (i : ℕ) : Prop :=
  ∃ k < cells.length, cellAt hashing magic cells.length s.name k = i ∧
    ∀ j < k, cells[cellAt hashing magic cells.length s.name j]? ≠ some .unused

section Table

variable [DecidableEq N] {hashing : Hashing N} {t t' : SymbolTable N} {S : Set (Sym N)} {s : Sym N}

/-- The symbols of the table are those of the set. -/
structure Table (hashing : Hashing N) (t : SymbolTable N) (S : Set (Sym N)) : Prop where
  sized : Sized hashing t.magic t.cells.length
  mem : ∀ s, .symbol s ∈ t.cells ↔ s ∈ S
  once : ∀ s, t.cells.count (.symbol s) ≤ 1
  names : ∀ s ∈ S, ∀ u ∈ S, s.name = u.name → s = u
  reaches : ∀ (i : ℕ) (s : Sym N), t.cells[i]? = some (.symbol s) →
    Reaches hashing t.magic t.cells s i
  counts : t.free + t.deleted + t.cells.countP Cell.isSymbol = t.size
  unused : t.cells.count .unused + t.size = t.cells.length + t.free
  room : t.size < t.cells.length

theorem count_cells (cells : List (Cell N)) :
    cells.countP Cell.isSymbol + cells.count .unused + cells.count .deleted = cells.length := by
  induction cells with
  | nil => rfl
  | cons c cells ih => cases c <;> simp [countP_cons, Cell.isSymbol] <;> omega

namespace Table

theorem deleted_eq (h : Table hashing t S) : t.cells.count .deleted = t.deleted := by
  have hcells := count_cells t.cells
  have hcounts := h.counts
  have hunused := h.unused
  omega

theorem one_le_unused (h : Table hashing t S) : 1 ≤ t.cells.count .unused := by
  have hunused := h.unused
  have hroom := h.room
  omega

theorem unused_mem (h : Table hashing t S) : Cell.unused ∈ t.cells :=
  count_pos_iff.mp h.one_le_unused

theorem count_eq (h : Table hashing t S) : t.count = t.cells.countP Cell.isSymbol := by
  have hcounts := h.counts
  unfold SymbolTable.count
  omega

theorem lookup (h : Table hashing t S) (name : N) :
    ∃ result, lookupSymbol hashing t name = some result ∧
    (∀ s i, result = some (s, i) ↔ s ∈ S ∧ s.name = name ∧ t.cells[i]? = some (.symbol s)) := by
  obtain ⟨result, hlookup, houtcome⟩ := lookup_outcome h.sized h.unused_mem name
  refine ⟨result, hlookup, fun s i => ?_⟩
  cases houtcome with
  | @found s' i' hcell hname =>
    have hs' : s' ∈ S := (h.mem s').mp (mem_of_getElem? hcell)
    constructor
    · intro heq
      cases heq
      exact ⟨hs', hname, hcell⟩
    rintro ⟨hs, hsname, hi⟩
    have heq := h.names s hs s' hs' (hsname.trans hname.symm)
    subst heq
    rw [eq_of_count_le_one (h.once s) hi hcell]
  | @missed k hcell hskip =>
    refine ⟨(fun heq => nomatch heq), fun ⟨hs, hsname, hi⟩ => ?_⟩
    obtain ⟨l, -, hl, hbefore⟩ := h.reaches i s hi
    rw [hsname] at hl hbefore
    rcases Nat.lt_trichotomy k l with hlt | rfl | hlt
    · exact absurd hcell (hbefore k hlt)
    · rw [hl, hi] at hcell
      cases hcell
    have hskipl := hskip l hlt
    rw [hl, hi] at hskipl
    rcases hskipl with heq | ⟨u, heq, hne⟩
    · cases heq
    · cases heq
      exact absurd hsname hne

end Table

/-! ## Adding -/

omit [DecidableEq N] in
theorem findUnoccupied_cellAt {magic : Magic} {cells : List (Cell N)} {name : N}
    (h : Sized hashing magic cells.length) {k : ℕ}
    (hskip : ∀ j < k, ∃ s, cells[cellAt hashing magic cells.length name j]? = some (.symbol s)) :
    ∀ {l fuel : ℕ}, l + fuel = k →
    ∀ rest, findUnoccupied cells (hash2 magic (hashing.nameHash name)) (fuel + rest)
      (cellAt hashing magic cells.length name l)
      = findUnoccupied cells (hash2 magic (hashing.nameHash name)) rest
        (cellAt hashing magic cells.length name k)
  | l, 0, hl, rest => by
    rw [← hl, Nat.zero_add]
    rfl
  | l, fuel + 1, hl, rest => by
    have ih := @findUnoccupied_cellAt magic cells name h k hskip (l + 1) fuel (by omega) rest
    obtain ⟨s, hs⟩ := hskip l (by omega)
    rw [Nat.add_right_comm, findUnoccupied, hs, ← ih, cellAt, cellAt, position_succ]

/-- A new symbol is stored behind symbols only. -/
theorem Table.storeSymbol (h : Table hashing t S) (hfree : 0 < t.free)
    (hs : ∀ u ∈ S, u.name ≠ s.name) :
    ∃ t', storeSymbol hashing t s = some t' ∧ Table hashing t' (insert s S) := by
  obtain ⟨i, hi, hget⟩ := getElem_of_mem h.unused_mem
  have hstop : ¬ ∃ u, t.cells[i]? = some (.symbol u) := by
    rw [getElem?_eq_getElem hi, hget]
    rintro ⟨u, heq⟩
    cases heq
  obtain ⟨k, hk, hstopk, hskip⟩ :=
    h.sized.exists_first s.name (fun i => ¬ ∃ u, t.cells[i]? = some (.symbol u)) hi hstop
  have hskip' : ∀ j < k, ∃ u, t.cells[cellAt hashing t.magic t.cells.length s.name j]? =
      some (.symbol u) := by
    intro j hj
    exact not_not.mp (hskip j hj)
  obtain ⟨rest, hrest⟩ := Nat.exists_eq_add_of_lt hk
  have hfind := findUnoccupied_cellAt h.sized hskip' (Nat.zero_add k) (rest + 1)
  rw [h.sized.cellAt_zero, ← Nat.add_assoc, ← hrest, findUnoccupied] at hfind
  have hlt := h.sized.cellAt_lt s.name k
  generalize hidx : cellAt hashing t.magic t.cells.length s.name k = idx at hfind hlt hstopk
  have hcell : ∃ old, t.cells[idx]? = some old ∧ old.isSymbol = false := by
    refine ⟨_, getElem?_eq_getElem hlt, ?_⟩
    rw [getElem?_eq_getElem hlt] at hstopk
    cases hold : t.cells[idx] with
    | symbol u => exact absurd ⟨u, by rw [hold]⟩ hstopk
    | _ => rfl
  obtain ⟨old, hcell, hold⟩ := hcell
  have hstored : ∀ t' : SymbolTable N, t'.magic = t.magic → t'.cells = t.cells.set idx (.symbol s) →
      t'.free + t'.deleted + 1 = t.free + t.deleted → t'.size = t.size →
      (t'.cells.count .unused + t'.size = t'.cells.length + t'.free) →
        Table hashing t' (insert s S) := by
    intro t' hmagic hcells hcounts hsize hunused
    have hlength : t'.cells.length = t.cells.length := by rw [hcells, length_set]
    have hcount : ∀ c : Cell N, t'.cells.count c + (if old = c then 1 else 0) =
        t.cells.count c + (if Cell.symbol s = c then 1 else 0) := by
      intro c
      rw [hcells]
      have hset := countP_set (· == c) (c := .symbol s) hcell
      simpa [count] using hset
    have hsold : ∀ u, old ≠ .symbol u := by
      rintro u rfl
      cases hold
    have hsS : s ∉ S := fun hmem => hs s hmem rfl
    refine ⟨hmagic ▸ hlength ▸ h.sized, fun u => ?_, fun u => ?_, fun u hu v hv huv => ?_,
      fun j u hj => ?_, ?_, hunused, ?_⟩
    · have hcountu := hcount (.symbol u)
      rw [if_neg (hsold u)] at hcountu
      rw [← count_pos_iff, Set.mem_insert_iff, ← h.mem u, ← count_pos_iff]
      by_cases hus : u = s
      · subst hus
        rw [if_pos rfl] at hcountu
        exact ⟨fun _ => .inl rfl, fun _ => by omega⟩
      · rw [if_neg (by simpa using Ne.symm hus)] at hcountu
        exact ⟨fun hpos => .inr (by omega),
          fun hpos => by rcases hpos with heq | hpos; exact absurd heq hus; omega⟩
    · have hcountu := hcount (.symbol u)
      rw [if_neg (hsold u)] at hcountu
      have honce := h.once u
      split at hcountu
      · rename_i heq
        cases heq
        have hnot : t.cells.count (.symbol s) = 0 :=
          List.count_eq_zero.mpr fun hmem => hsS ((h.mem s).mp hmem)
        omega
      · omega
    · rcases hu with rfl | hu
      · rcases hv with rfl | hv
        · rfl
        · exact absurd huv.symm (hs v hv)
      · rcases hv with rfl | hv
        · exact absurd huv (hs u hu)
        · exact h.names u hu v hv huv
    · unfold Reaches
      rw [hmagic, hlength]
      rw [hcells] at hj ⊢
      by_cases hjidx : j = idx
      · subst hjidx
        rw [getElem?_set_self hcell] at hj
        cases hj
        refine ⟨k, hk, hidx, fun l hl => used_set (by simp) ?_⟩
        obtain ⟨u, hu⟩ := hskip' l hl
        rw [hu]
        simp
      · rw [getElem?_set_of_ne hjidx] at hj
        obtain ⟨l, hl, hlj, hbefore⟩ := h.reaches j u hj
        exact ⟨l, hl, hlj, fun m hm => used_set (by simp) (hbefore m hm)⟩
    · have hset := countP_set Cell.isSymbol (c := .symbol s) hcell
      rw [← hcells, hold] at hset
      have hcounts' := h.counts
      simp [Cell.isSymbol] at hset
      omega
    · rw [hsize, hlength]
      exact h.room
  have hcells : (t.cells.set idx (.symbol s)).count .unused + (if old = .unused then 1 else 0) =
      t.cells.count .unused := by
    have hset := countP_set (· == Cell.unused) (c := .symbol s) hcell
    simpa [count] using hset
  have hlen : (t.cells.set idx (.symbol s)).length = t.cells.length := length_set
  have hunused := h.unused
  have hdeleted : old ≠ .unused → 0 < t.deleted := by
    intro hne
    have hold' : old = .deleted := by
      cases old with
      | unused => exact absurd rfl hne
      | deleted => rfl
      | symbol u => cases hold
    rw [← h.deleted_eq]
    exact count_pos_iff.mpr (mem_of_getElem? (hold' ▸ hcell))
  unfold SymbolTables.storeSymbol
  dsimp only
  rw [hfind, hcell]
  cases old with
  | symbol u => cases hold
  | unused =>
    refine ⟨_, rfl, hstored _ rfl rfl ?_ rfl ?_⟩
    · show t.free - 1 + t.deleted + 1 = t.free + t.deleted
      omega
    · show (t.cells.set idx (.symbol s)).count .unused + t.size =
        (t.cells.set idx (.symbol s)).length + (t.free - 1)
      rw [if_pos rfl] at hcells
      omega
  | deleted =>
    have hpos := hdeleted (by simp)
    refine ⟨_, rfl, hstored _ rfl rfl ?_ rfl ?_⟩
    · show t.free + (t.deleted - 1) + 1 = t.free + t.deleted
      omega
    · show (t.cells.set idx (.symbol s)).count .unused + t.size =
        (t.cells.set idx (.symbol s)).length + t.free
      rw [if_neg (by simp)] at hcells
      omega

end Table

/-! ## Robin Hood insertion -/

section RobinHood

variable {hashing : Hashing N} {magic : Magic} {n : ℕ} {r r' : Rehash N} {s : Sym N}

/-- The cells before probe `k` of the symbol are taken by symbols that are as far from their starts.
-/
def Behind (hashing : Hashing N) (magic : Magic) (n : ℕ) (r : Rehash N) (s : Sym N)
    (k : ℕ) : Prop :=
  ∀ j < k, ∃ c, j ≤ c ∧ r.psps[cellAt hashing magic n s.name j]? = some (some c)

/-- A cell was never used and has no position, or it has a symbol at its position, with such cells
behind. -/
inductive Placed (hashing : Hashing N) (magic : Magic) (n : ℕ) (r : Rehash N) (i : ℕ) : Prop
  | unused : r.vec[i]? = some .unused → r.psps[i]? = some none → Placed hashing magic n r i
  | symbol (s : Sym N) (k : ℕ) : r.vec[i]? = some (.symbol s) → r.psps[i]? = some (some k) →
      cellAt hashing magic n s.name k = i → Behind hashing magic n r s k →
        Placed hashing magic n r i

structure RobinHood (hashing : Hashing N) (magic : Magic) (n : ℕ) (r : Rehash N) : Prop where
  vec : r.vec.length = n
  psps : r.psps.length = n
  placed : ∀ i < n, Placed hashing magic n r i

/-- Positions only grow. -/
theorem Behind.set {k k' i : ℕ} {vec : List (Cell N)} (h : Behind hashing magic n r s k')
    {old : Option ℕ} (hold : r.psps[i]? = some old) (hlt : ∀ c, old = some c → c ≤ k) :
    Behind hashing magic n ⟨vec, r.psps.set i (some k)⟩ s k' := by
  intro j hj
  obtain ⟨c, hjc, hc⟩ := h j hj
  by_cases hi : cellAt hashing magic n s.name j = i
  · rw [hi] at hc ⊢
    rw [hold, Option.some.injEq] at hc
    exact ⟨k, hjc.trans (hlt c hc), getElem?_set_self hold⟩
  · exact ⟨c, hjc, (getElem?_set_of_ne hi).trans hc⟩

/-- While there is a cell that was never used, the positions stay below the number of the cells. -/
theorem Behind.lt (hsized : Sized hashing magic n) (hr : RobinHood hashing magic n r)
    (hunused : .unused ∈ r.vec) {k : ℕ} (h : Behind hashing magic n r s k) : k < n := by
  by_contra hle
  obtain ⟨i, hi, hget⟩ := getElem_of_mem hunused
  rw [hr.vec] at hi
  have hcell : r.vec[i]? = some .unused :=
    List.getElem?_eq_some_iff.mpr ⟨by rw [hr.vec]; exact hi, hget⟩
  obtain ⟨j, hj, rfl⟩ := hsized.exists_cellAt s.name hi
  obtain ⟨c, -, hc⟩ := h j (by omega)
  cases hr.placed _ hi with
  | unused _ hnone =>
    rw [hnone] at hc
    cases hc
  | symbol u l hu _ _ _ =>
    rw [hu] at hcell
    cases hcell

theorem RobinHood.place (hr : RobinHood hashing magic n r) {i k : ℕ} (hi : i < n)
    (hk : cellAt hashing magic n s.name k = i)
    (hbehind : Behind hashing magic n r s k) {old : Option ℕ} (hold : r.psps[i]? = some old)
    (hlt : ∀ c, old = some c → c ≤ k) :
    RobinHood hashing magic n ⟨r.vec.set i (.symbol s), r.psps.set i (some k)⟩ := by
  refine ⟨by rw [length_set, hr.vec], by rw [length_set, hr.psps], fun j hj => ?_⟩
  by_cases hji : j = i
  · subst hji
    have hlen : j < r.vec.length := by
      rw [hr.vec]
      exact hj
    have hvec : r.vec[j]? = some r.vec[j] := getElem?_eq_getElem hlen
    exact .symbol s k (getElem?_set_self hvec) (getElem?_set_self hold) hk (hbehind.set hold hlt)
  · cases hr.placed j hj with
    | unused hvec hpsp => exact .unused ((getElem?_set_of_ne hji).trans hvec) ((getElem?_set_of_ne hji).trans hpsp)
    | symbol u l hvec hpsp hl hu =>
      exact .symbol u l ((getElem?_set_of_ne hji).trans hvec) ((getElem?_set_of_ne hji).trans hpsp)
        hl (hu.set hold hlt)

/-- How much a cell's position can still grow. -/
def pspRoom (n : ℕ) : Option ℕ → ℕ
  | none => n + 1
  | some k => n - k

/-- The sum of these, and what the symbol that is carried has left. -/
def insMeasure (n : ℕ) (r : Rehash N) (k : ℕ) : ℕ :=
  (r.psps.map (pspRoom n)).sum * (n + 1) + (n - k)

variable [DecidableEq N]

/-- The symbols of a vector with one more. -/
def Adds (r r' : Rehash N) (s : Sym N) : Prop :=
  (∀ u : Sym N, r'.vec.count (.symbol u) = r.vec.count (.symbol u) + if u = s then 1 else 0) ∧
    r'.vec.count .unused + 1 = r.vec.count .unused

theorem ins_spec (hsized : Sized hashing magic n) : ∀ {fuel k : ℕ} {s : Sym N} {r : Rehash N},
    RobinHood hashing magic n r →
    Behind hashing magic n r s k → .unused ∈ r.vec → insMeasure n r k < fuel →
    ∃ r', ins hashing magic fuel k s r = some r' ∧ RobinHood hashing magic n r' ∧ Adds r r' s
  | fuel + 1, k, s, r, hr, hbehind, hunused, hfuel => by
    have hkn := hbehind.lt hsized hr hunused
    have hi := hsized.cellAt_lt s.name k
    have hindex :
      (hash1 magic (hashing.nameHash s.name) r.vec.length + k *
        hash2 magic (hashing.nameHash s.name))
        % r.vec.length = cellAt hashing magic n s.name k := by
      rw [hr.vec]
      rfl
    rw [ins, hindex]
    generalize hidx : cellAt hashing magic n s.name k = i at hi
    cases hr.placed i hi with
    | unused hvec hpsp =>
      rw [hvec, hpsp]
      refine ⟨_, rfl, hr.place hi hidx hbehind hpsp (by simp), fun u => ?_, ?_⟩
      · have hset := countP_set (· == Cell.symbol u) (c := .symbol s) hvec
        simp only [count] at *
        by_cases hus : u = s
        · subst hus
          simpa using hset
        · have hsu : ¬ s = u := fun heq => hus heq.symm
          simpa [hus, hsu] using hset
      · have hset := countP_set (· == (Cell.unused : Cell N)) (c := .symbol s) hvec
        simpa [count] using hset
    | symbol u l hvec hpsp hl hu =>
      rw [hvec, hpsp]
      dsimp only
      by_cases hlk : l < k
      · -- The symbol takes the cell, and the one that was there goes on.
        rw [if_pos (by simpa using hlk)]
        have hle : ∀ c, some l = some c → c ≤ k := by
          intro c hc
          cases hc
          omega
        have hr2 := hr.place hi hidx hbehind hpsp hle
        have hbehind2 :
            Behind hashing magic n ⟨r.vec.set i (.symbol s), r.psps.set i (some k)⟩ u (l + 1) := by
          intro j hj
          by_cases hjl : j < l
          · exact hu.set hpsp hle j hjl
          have hjl' : j = l := by omega
          subst hjl'
          refine ⟨k, by omega, ?_⟩
          rw [hl]
          exact getElem?_set_self hpsp
        have hcount : ∀ c : Cell N,
          (r.vec.set i (.symbol s)).count c + (if Cell.symbol u = c then 1 else 0)
            = r.vec.count c + (if Cell.symbol s = c then 1 else 0) := by
          intro c
          have hset := countP_set (· == c) (c := .symbol s) hvec
          simpa [count] using hset
        have hcountUnused : (r.vec.set i (.symbol s)).count .unused = r.vec.count .unused := by
          simpa using hcount .unused
        have hunused2 : Cell.unused ∈ r.vec.set i (.symbol s) := by
          rw [← count_pos_iff, hcountUnused]
          exact count_pos_iff.mpr hunused
        have hmeasure :
            insMeasure n ⟨r.vec.set i (.symbol s), r.psps.set i (some k)⟩ (l + 1) < fuel := by
          have hsum := sum_set (pspRoom n) (c := some k) hpsp
          have hroom : pspRoom n (some k) + 1 ≤ pspRoom n (some l) := by
            unfold pspRoom
            dsimp only
            omega
          have hstep : ((r.psps.set i (some k)).map (pspRoom n)).sum + 1 ≤
              (r.psps.map (pspRoom n)).sum := by omega
          have hmul := Nat.mul_le_mul_right (n + 1) hstep
          rw [Nat.add_mul, Nat.one_mul] at hmul
          unfold insMeasure at *
          dsimp only
          omega
        obtain ⟨r', hins, hr', hadds, haddsUnused⟩ := ins_spec hsized hr2 hbehind2 hunused2 hmeasure
        refine ⟨r', hins, hr', fun v => ?_, ?_⟩
        · have hv := hcount (.symbol v)
          rw [hadds v]
          simp only [Cell.symbol.injEq, eq_comm (b := v)] at hv
          omega
        · rw [haddsUnused, hcountUnused]
      · rw [if_neg (by simpa using hlk)]
        have hbehind' : Behind hashing magic n r s (k + 1) := by
          intro j hj
          by_cases hjk : j < k
          · exact hbehind j hjk
          · have hjk' : j = k := by omega
            subst hjk'
            exact ⟨l, by omega, by rw [hidx]; exact hpsp⟩
        have hmeasure : insMeasure n r (k + 1) < fuel := by
          unfold insMeasure at *
          omega
        exact ins_spec hsized hr hbehind' hunused hmeasure

omit [DecidableEq N] in
theorem insMeasure_lt (hr : RobinHood hashing magic n r) :
    insMeasure n r 0 < (r.vec.length + 2) ^ 3 := by
  have hle : ((r.psps.map (pspRoom n)).sum) ≤ (r.psps.map (pspRoom n)).length • (n + 1) := by
    apply List.sum_le_card_nsmul
    intro x hx
    obtain ⟨psp, -, rfl⟩ := List.mem_map.mp hx
    cases psp <;> simp [pspRoom]
    omega
  rw [List.length_map, hr.psps, smul_eq_mul] at hle
  have hmul := Nat.mul_le_mul_right (n + 1) hle
  have hcube : (n + 2) ^ 3 = n * (n + 1) * (n + 1) + (4 * (n * n) + 11 * n + 8) := by ring
  unfold insMeasure
  rw [hr.vec, hcube]
  omega

theorem insAll_spec (hsized : Sized hashing magic n) : ∀ {cells : List (Cell N)} {r : Rehash N},
    RobinHood hashing magic n r → cells.countP Cell.isSymbol < r.vec.count .unused →
    ∃ r', insAll hashing magic cells r = some r' ∧ RobinHood hashing magic n r' ∧
      (∀ u : Sym N, r'.vec.count (.symbol u) = r.vec.count (.symbol u) + cells.count (.symbol u)) ∧
      r'.vec.count .unused + cells.countP Cell.isSymbol = r.vec.count .unused
  | [], r, hr, _ => ⟨r, rfl, hr, fun _ => rfl, rfl⟩
  | .unused :: cells, r, hr, hroom | .deleted :: cells, r, hr, hroom => by
    rw [List.countP_cons_of_neg (by simp [Cell.isSymbol])] at hroom ⊢
    obtain ⟨r', hall, hr', hcounts, hunused⟩ := insAll_spec hsized hr hroom
    exact ⟨r', hall, hr', fun u => by rw [hcounts u, List.count_cons_of_ne (by simp)], hunused⟩
  | .symbol s :: cells, r, hr, hroom => by
    rw [List.countP_cons_of_pos rfl] at hroom ⊢
    have hunused : Cell.unused ∈ r.vec := count_pos_iff.mp (by omega)
    have hstart : Behind hashing magic n r s 0 := fun j hj => absurd hj (Nat.not_lt_zero j)
    obtain ⟨r₁, hins, hr₁, hadds, haddsUnused⟩ :=
      ins_spec hsized hr hstart hunused (insMeasure_lt hr)
    obtain ⟨r', hall, hr', hcounts, hcountsUnused⟩ :=
      insAll_spec hsized hr₁ (show cells.countP Cell.isSymbol < r₁.vec.count .unused by omega)
    refine ⟨r', ?_, hr', fun u => ?_, by omega⟩
    · rw [insAll, Option.bind_eq_bind, hins, Option.bind_some, hall]
    · rw [hcounts u, hadds u, count_cons]
      simp only [beq_iff_eq, Cell.symbol.injEq, eq_comm (b := u)]
      omega

omit [DecidableEq N] in
theorem robinHood_replicate :
    RobinHood hashing magic n ⟨replicate n .unused, replicate n none⟩ := by
  refine ⟨length_replicate, length_replicate, fun i hi => .unused ?_ ?_⟩
  · exact (List.getElem?_replicate_of_lt hi)
  · exact (List.getElem?_replicate_of_lt hi)

omit [DecidableEq N] in
theorem RobinHood.reaches (hsized : Sized hashing magic n) (hr : RobinHood hashing magic n r)
    (hunused : .unused ∈ r.vec)
    {i : ℕ} (hi : r.vec[i]? = some (.symbol s)) : Reaches hashing magic r.vec s i := by
  have hlt : i < n := by
    rw [← hr.vec]
    exact (List.getElem?_eq_some_iff.mp hi).1
  cases hr.placed i hlt with
  | unused hvec _ =>
    rw [hvec] at hi
    cases hi
  | symbol u k hvec _ hk hbehind =>
    rw [hvec] at hi
    cases hi
    unfold Reaches
    rw [hr.vec]
    refine ⟨k, hbehind.lt hsized hr hunused, hk, fun j hj => ?_⟩
    obtain ⟨c, -, hc⟩ := hbehind j hj
    cases hr.placed _ (hsized.cellAt_lt s.name j) with
    | unused _ hnone =>
      rw [hnone] at hc
      cases hc
    | symbol v _ hv _ _ _ =>
      rw [hv]
      simp

end RobinHood

/-! ## Resizing -/

section Resize

variable [DecidableEq N] {hashing : Hashing N} {t t' : SymbolTable N} {S : Set (Sym N)} {s : Sym N}

theorem le_size (size : ℕ) : size ≤ physicalSize size * 3 / 4 ∧
    physicalSize size * 3 / 4 < physicalSize size := by
  obtain ⟨hprime, -, hle⟩ := physicalSize_spec size
  have hpos := hprime.pos
  omega

theorem Table.make (size : ℕ) : Table hashing (makeSymbolTable hashing size) ∅ := by
  have hsize := le_size size
  have hcells : (makeSymbolTable hashing size).cells = replicate (physicalSize size) .unused := rfl
  have hnone : ∀ (i : ℕ) (s : Sym N), (makeSymbolTable hashing size).cells[i]? ≠
      some (.symbol s) := by
    intro i s hi
    have hmem := mem_of_getElem? hi
    rw [hcells] at hmem
    cases List.eq_of_mem_replicate hmem
  refine ⟨sized_makeSymbolTable hashing size, fun s => ?_, fun s => ?_,
    fun s hs => absurd hs (Set.notMem_empty s), fun i s hi => absurd hi (hnone i s), ?_, ?_, ?_⟩
  · rw [hcells]
    simp
  · rw [hcells, List.count_replicate]
    simp
  · rw [hcells, List.countP_replicate]
    simp [makeSymbolTable, Cell.isSymbol]
  · rw [hcells, List.count_replicate_self]
    simp [makeSymbolTable]
  · rw [hcells, length_replicate]
    exact hsize.2

theorem Table.resize (h : Table hashing t S) {size : ℕ}
    (hsize : t.cells.countP Cell.isSymbol ≤ size) :
    ∃ t', resizeSymbolTable hashing t size = some t' ∧ Table hashing t' S ∧ size ≤ t'.size ∧
      t'.deleted = 0 ∧ t'.cells.countP Cell.isSymbol = t.cells.countP Cell.isSymbol := by
  unfold resizeSymbolTable
  by_cases hzero : size = 0
  · rw [if_pos hzero]
    have hcount : t.cells.countP Cell.isSymbol = 0 := by omega
    have hempty : ∀ s, s ∉ S := by
      intro s hs
      rw [List.countP_eq_zero] at hcount
      exact hcount _ ((h.mem s).mpr hs) rfl
    refine ⟨_, rfl, ⟨sized_empty hashing, fun s => ?_, fun s => ?_,
      fun s hs => absurd hs (hempty s), fun i s hi => ?_, ?_, ?_, ?_⟩, by omega, rfl, hcount.symm⟩
    · simpa [emptyCells] using hempty s
    · simp [emptyCells]
    · have hmem := mem_of_getElem? hi
      simp [emptyCells] at hmem
    · simp [emptyCells, Cell.isSymbol]
    · simp [emptyCells]
    · simp [emptyCells]
  · rw [if_neg hzero]
    dsimp only
    have hsized := sized_makeSymbolTable hashing size
    obtain ⟨hle, hlt⟩ := le_size size
    have hcells : (makeSymbolTable hashing size).cells = replicate (physicalSize size) .unused :=
      rfl
    have hlength : (makeSymbolTable hashing size).cells.length = physicalSize size := by
      rw [hcells, length_replicate]
    rw [hlength] at hsized ⊢
    have hroom : t.cells.countP Cell.isSymbol <
        (replicate (physicalSize size) (Cell.unused : Cell N)).count .unused := by
      rw [List.count_replicate_self]
      omega
    obtain ⟨r, hall, hr, hcounts, hunused⟩ := insAll_spec hsized robinHood_replicate hroom
    simp only [List.count_replicate_self] at hunused
    have hcount : ∀ u : Sym N, r.vec.count (.symbol u) = t.cells.count (.symbol u) := by
      intro u
      rw [hcounts u, List.count_replicate]
      simp
    have hmem : Cell.unused ∈ r.vec := count_pos_iff.mp (by omega)
    have hdeleted : r.vec.count .deleted = 0 := by
      rw [List.count_eq_zero]
      intro hdel
      obtain ⟨i, hi, hget⟩ := getElem_of_mem hdel
      have hi' : r.vec[i]? = some .deleted := List.getElem?_eq_some_iff.mpr ⟨hi, hget⟩
      rw [hr.vec] at hi
      cases hr.placed i hi with
      | unused hvec _ =>
        rw [hvec] at hi'
        cases hi'
      | symbol _ _ hvec _ _ _ =>
        rw [hvec] at hi'
        cases hi'
    have hall' := count_cells r.vec
    rw [hr.vec] at hall'
    refine ⟨⟨(makeSymbolTable hashing size).magic, r.vec, physicalSize size * 3 / 4,
      physicalSize size * 3 / 4 - t.cells.countP Cell.isSymbol, 0⟩, ?_,
      ⟨?_, fun s => ?_, fun s => ?_, h.names, fun i s hi => ?_, ?_,
      ?_, ?_⟩, hle, rfl, by dsimp only; omega⟩
    · rw [hcells, Option.bind_eq_bind, hall]
      rfl
    · rw [hr.vec]
      exact hsized
    · rw [← h.mem s, ← count_pos_iff, ← count_pos_iff, hcount s]
    · rw [hcount s]
      exact h.once s
    · exact hr.reaches hsized hmem hi
    · dsimp only
      omega
    · dsimp only
      rw [hr.vec]
      omega
    · rw [hr.vec]
      exact hlt

/-! ## Removing -/

/-- A cell that is marked as deleted is still not one that was never used. -/
theorem Table.delete (h : Table hashing t S) {i : ℕ} (hs : t.cells[i]? = some (.symbol s)) :
    Table hashing { t with cells := t.cells.set i .deleted, deleted := t.deleted + 1 }
      (S \ {s}) := by
  have hcount : ∀ c : Cell N,
    (t.cells.set i .deleted).count c + (if Cell.symbol s = c then 1 else 0)
      = t.cells.count c + (if Cell.deleted = c then 1 else 0) := by
    intro c
    have hset := countP_set (· == c) (c := .deleted) hs
    simpa [count] using hset
  have hlength : (t.cells.set i .deleted).length = t.cells.length := length_set
  have honce := h.once s
  refine ⟨?_, fun u => ?_, fun u => ?_, fun u hu v hv => h.names u hu.1 v hv.1,
    fun j u hj => ?_, ?_, ?_, ?_⟩
  · dsimp only
    rw [hlength]
    exact h.sized
  · dsimp only
    have hu := hcount (.symbol u)
    rw [if_neg (show ¬ Cell.deleted = Cell.symbol u by simp)] at hu
    rw [← count_pos_iff, Set.mem_sdiff, Set.mem_singleton_iff, ← h.mem u, ← count_pos_iff]
    by_cases hus : u = s
    · subst hus
      rw [if_pos rfl] at hu
      exact ⟨fun hpos' => by omega, fun hne => absurd rfl hne.2⟩
    · rw [if_neg (by simpa using Ne.symm hus)] at hu
      exact ⟨fun hpos' => ⟨by omega, hus⟩, fun hpos' => by omega⟩
  · have hu := hcount (.symbol u)
    rw [if_neg (show ¬ Cell.deleted = Cell.symbol u by simp)] at hu
    have honceu := h.once u
    dsimp only
    omega
  · dsimp only at hj ⊢
    have hji : j ≠ i := by
      rintro rfl
      rw [getElem?_set_self hs] at hj
      cases hj
    rw [getElem?_set_of_ne hji] at hj
    obtain ⟨k, hk, hkj, hbefore⟩ := h.reaches j u hj
    unfold Reaches
    rw [hlength]
    exact ⟨k, hk, hkj, fun l hl => used_set (by simp) (hbefore l hl)⟩
  · have hset := countP_set Cell.isSymbol (c := .deleted) hs
    have hcounts := h.counts
    simp [Cell.isSymbol] at hset
    dsimp only
    omega
  · have hunused := hcount .unused
    simp only [reduceCtorEq, if_false, Nat.add_zero] at hunused
    have hunused' := h.unused
    dsimp only
    omega
  · dsimp only
    rw [hlength]
    exact h.room

theorem Table.addSymbol (h : Table hashing t S) (hs : ∀ u ∈ S, u.name ≠ s.name) :
    ∃ t', addSymbol hashing t s = some t' ∧ Table hashing t' (insert s S) := by
  unfold SymbolTables.addSymbol
  have hcounts := h.counts
  by_cases hfree : t.free = 0
  · rw [if_pos hfree]
    obtain ⟨t₁, hresize, h₁, hsize, hdeleted, hlive⟩ :=
      h.resize (show _ ≤ max 1 ((t.size - t.deleted) * 2) by omega)
    have hcounts₁ := h₁.counts
    obtain ⟨t', hstore, ht'⟩ := h₁.storeSymbol (by omega) hs
    exact ⟨t', by rw [hresize]; exact hstore, ht'⟩
  · rw [if_neg hfree]
    exact h.storeSymbol (by omega) hs

theorem Table.nukeSymbol (h : Table hashing t S) (hs : s ∈ S) :
    ∃ t', nukeSymbol hashing t s = some t' ∧ Table hashing t' (S \ {s}) := by
  obtain ⟨i, hi, hget⟩ := getElem_of_mem ((h.mem s).mpr hs)
  have hcell : t.cells[i]? = some (.symbol s) := List.getElem?_eq_some_iff.mpr ⟨hi, hget⟩
  obtain ⟨result, hlookup, hresult⟩ := h.lookup s.name
  have hfound : result = some (s, i) := (hresult s i).mpr ⟨hs, rfl, hcell⟩
  have h₁ := h.delete hcell
  unfold SymbolTables.nukeSymbol
  rw [hlookup, hfound, Option.bind_eq_bind, Option.bind_some]
  dsimp only
  split
  · have hlive := h₁.count_eq
    obtain ⟨t', hresize, ht', -⟩ := h₁.resize (Nat.le_mul_of_pos_right _ (show 0 < 2 by omega))
    rw [← hlive] at hresize
    exact ⟨t', hresize, ht'⟩
  · exact ⟨_, rfl, h₁⟩

theorem Reachable.table (h : Reachable hashing t S) : Table hashing t S := by
  induction h with
  | make size => exact Table.make size
  | add _ hs hadd ih =>
    obtain ⟨t', hadd', ht'⟩ := ih.addSymbol hs
    rw [hadd, Option.some.injEq] at hadd'
    exact hadd' ▸ ht'
  | nuke _ hs hnuke ih =>
    obtain ⟨t', hnuke', ht'⟩ := ih.nukeSymbol hs
    rw [hnuke, Option.some.injEq] at hnuke'
    exact hnuke' ▸ ht'

end Resize

/-! ## Runs -/

/-- What holds of the table and of its symbols. -/
structure FiniteSet [DecidableEq N] (hashing : Hashing N) (t : SymbolTable N) (S : Set (Sym N)) :
    Prop where
  /-- A lookup ends, and it returns a symbol with its index exactly if the symbol is in the set. -/
  lookup : ∀ name, ∃ result, lookupSymbol hashing t name = some result ∧
    ((∃ s ∈ S, s.name = name) ↔ result.isSome) ∧
    ∀ s i, result = some (s, i) ↔ s ∈ S ∧ s.name = name ∧ t.cells[i]? = some (.symbol s)
  counts : t.free + t.deleted + t.cells.countP Cell.isSymbol = t.size
  deleted : t.cells.count .deleted = t.deleted
  unused : t.cells.count .unused = t.cells.length - t.size + t.free
  size : t.size < t.cells.length
  one_le_unused : 1 ≤ t.cells.count .unused
  reaches : ∀ (i : ℕ) (s : Sym N), t.cells[i]? = some (.symbol s) →
    Reaches hashing t.magic t.cells s i
  /-- Adding and removing end. -/
  add : ∀ s, (∀ u ∈ S, u.name ≠ s.name) → ∃ t', addSymbol hashing t s = some t'
  nuke : ∀ s ∈ S, ∃ t', nukeSymbol hashing t s = some t'

theorem table_run [DecidableEq N] (hashing : Hashing N) {t : SymbolTable N} {S : Set (Sym N)}
    (h : Reachable hashing t S) : FiniteSet hashing t S := by
  have ht := h.table
  have hroom := ht.room
  have hunused := ht.unused
  refine ⟨fun name => ?_, ht.counts, ht.deleted_eq, by omega, hroom, ht.one_le_unused, ht.reaches,
    fun s hs => ?_, fun s hs => ?_⟩
  · obtain ⟨result, hlookup, hresult⟩ := ht.lookup name
    refine ⟨result, hlookup, ⟨?_, ?_⟩, hresult⟩
    · intro ⟨s, hs, hname⟩
      obtain ⟨i, hi, hget⟩ := getElem_of_mem ((ht.mem s).mpr hs)
      rw [(hresult s i).mpr ⟨hs, hname, List.getElem?_eq_some_iff.mpr ⟨hi, hget⟩⟩]
      rfl
    · intro hsome
      obtain ⟨⟨s, i⟩, hsi⟩ := Option.isSome_iff_exists.mp hsome
      obtain ⟨hs, hname, -⟩ := (hresult s i).mp hsi
      exact ⟨s, hs, hname⟩
  · obtain ⟨t', hadd, -⟩ := ht.addSymbol hs
    exact ⟨t', hadd⟩
  · obtain ⟨t', hnuke, -⟩ := ht.nukeSymbol hs
    exact ⟨t', hnuke⟩

/-- Numbers as names that are their own hashes, with all of a hash in the dividend. -/
def numberHashing : Hashing ℕ := ⟨id, fun _ => (2 ^ 32 - 1, 0)⟩

/-- After three symbols on one probe sequence, of which the first was removed from a table that had
grown. -/
def threeSymbols : SymbolTable ℕ :=
  ⟨⟨2 ^ 32 - 1, 0, 3⟩, [.unused, .unused, .symbol ⟨2, 19⟩, .unused, .unused, .deleted,
    .symbol ⟨1, 12⟩], 5, 2, 1⟩

theorem reachable_threeSymbols :
    Reachable numberHashing threeSymbols
      (insert ⟨2, 19⟩ (insert ⟨1, 12⟩ (insert ⟨0, 5⟩ ∅)) \ {⟨0, 5⟩}) := by
  have h₁ : Reachable numberHashing _ _ := .add (.make 1) (by simp)
    (show addSymbol numberHashing _ ⟨0, 5⟩ = some ⟨⟨0, 0, 0⟩, [.symbol ⟨0, 5⟩, .unused, .unused], 2,
      1, 0⟩ by decide)
  have h₂ : Reachable numberHashing _ _ := .add h₁ (by simp)
    (show addSymbol numberHashing _ ⟨1, 12⟩ =
      some ⟨⟨0, 0, 0⟩, [.symbol ⟨0, 5⟩, .symbol ⟨1, 12⟩, .unused], 2, 0, 0⟩ by decide)
  have h₃ : Reachable numberHashing _ _ := .add h₂ (by simp)
    (show addSymbol numberHashing _ ⟨2, 19⟩ = some ⟨⟨2 ^ 32 - 1, 0, 3⟩,
      [.unused, .unused, .symbol ⟨2, 19⟩, .unused, .unused, .symbol ⟨0, 5⟩, .symbol ⟨1, 12⟩], 5,
      2, 0⟩ by decide)
  exact .nuke h₃ (by simp) (by decide)

theorem table_run_threeSymbols :
    FiniteSet numberHashing threeSymbols
      (insert ⟨2, 19⟩ (insert ⟨1, 12⟩ (insert ⟨0, 5⟩ ∅)) \ {⟨0, 5⟩}) :=
  table_run numberHashing reachable_threeSymbols

end Sbcl.SymbolTables
