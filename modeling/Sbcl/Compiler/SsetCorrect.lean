import Sbcl.Compiler.Sset
import Sbcl.Packages.SymbolTableCorrect

/-!
# Sparse sets are finite sets

* `Cells` : a vector whose elements are a finite set, each on its own probe sequence before any cell
  that was never used;
* `Table` : the counts of a set; `reserve` cells more than `free` are unused;
* `Changes` : what an operation on one set leaves as it was;
* `across_spec` : the rule of the loops over a vector;
* `sset_run` : sequences of operations.
-/

namespace Sbcl.Ssets

open Probing List Option Nat Finset
open SymbolTables (countP_set getElem?_set_of_ne getElem?_set_self)

variable {E : Type}
variable {old : Cell E} {free k n : ℕ} {b : ℕ → E → Heap E → Option (Bool × Heap E)}

/-! ## Vectors, finite sets and heaps -/

variable {i : ℕ}

theorem set_getElem?_self {α : Type} {l : List α} {a : α} (h : l[i]? = some a) : l.set i a = l := by
  obtain ⟨hlt, rfl⟩ := List.getElem?_eq_some_iff.mp h
  exact set_getElem_self hlt

def Cell.isUnused : Cell E → Bool
  | .unused => true
  | _ => false

variable {v : List (Cell E)}

theorem unused_mem (h : 0 < v.countP Cell.isUnused) : .unused ∈ v := by
  obtain ⟨c, hc, hunused⟩ := countP_pos_iff.mp h
  cases c <;> simp_all [Cell.isUnused]

variable {c : Cell E}

theorem used_set (hc : c ≠ .unused) {j : ℕ} (hj : v[j]? ≠ some .unused) :
    (v.set i c)[j]? ≠ some .unused := by
  by_cases hij : i = j
  · subst hij
    rw [getElem?_set_self']
    cases hi : v[i]? with
    | none => simp
    | some old => simpa using hc
  · rwa [getElem?_set_ne hij]

def Cell.element? : Cell E → Option E
  | .element e => some e
  | _ => none

variable {e : E}

theorem element?_eq_some : c.element? = some e ↔ c = .element e := by
  cases c <;> simp [Cell.element?]

/-- The elements that a loop came to before the cell `i`. -/
def before [DecidableEq E] (v : List (Cell E)) (i : ℕ) : Finset E :=
  ((v.take i).filterMap Cell.element?).toFinset

theorem mem_before [DecidableEq E] : e ∈ before v i ↔ ∃ j < i, v[j]? = some (.element e) := by
  simp only [before, List.mem_toFinset, List.mem_filterMap, element?_eq_some,
    List.mem_take_iff_getElem]
  constructor
  · rintro ⟨c, ⟨j, hj, hc⟩, rfl⟩
    exact ⟨j, by omega, List.getElem?_eq_some_iff.mpr ⟨by omega, hc⟩⟩
  · rintro ⟨j, hj, hc⟩
    obtain ⟨hlt, hc⟩ := List.getElem?_eq_some_iff.mp hc
    exact ⟨_, ⟨j, by omega, hc⟩, rfl⟩

theorem before_succ [DecidableEq E] (hi : v[i]? = some (.element e)) :
    before v (i + 1) = insert e (before v i) := by
  ext e'
  simp only [Finset.mem_insert, mem_before, Nat.lt_succ_iff_lt_or_eq, or_and_right, exists_or,
    exists_eq_left, hi, Option.some.injEq, Cell.element.injEq]
  rw [or_comm, eq_comm]

theorem before_succ_of_not [DecidableEq E] (hi : ∀ e, v[i]? ≠ some (.element e)) :
    before v (i + 1) = before v i := by
  ext e'
  simp only [mem_before, Nat.lt_succ_iff_lt_or_eq, or_and_right, exists_or,
    exists_eq_left, hi, or_false]

variable {T : Finset E}

theorem mem_of_set {sets : List (Finset E)} {set1 set3 : ℕ} {S1 S3 : Finset E}
    (h1 : sets[set1]? = some S1)
    (h3 : sets[set3]? = some S3) (he : e ∈ T ↔ e ∈ S1) : ∃ S, (sets.set set1 T)[set3]? = some S ∧
      (e ∈ S ↔ e ∈ S3) := by
  by_cases h : set3 = set1
  · subst h
    obtain rfl := Option.some.inj (h1.symm.trans h3)
    exact ⟨T, getElem?_set_self h1, he⟩
  · exact ⟨S3, (getElem?_set_of_ne h).trans h3, Iff.rfl⟩

variable {S : Finset E}

theorem changed_insert [DecidableEq E] (hST : S ⊆ T) (e : E) :
    (decide (T ≠ S) || decide (e ∉ T)) = decide (insert e T ≠ S) := by
  rw [← Bool.decide_or, decide_eq_decide]
  constructor
  · rintro (hne | he) heq
    · exact hne (Finset.Subset.antisymm (heq ▸ subset_insert e T) hST)
    · exact he (hST (heq ▸ mem_insert_self e T))
  intro hne
  by_cases he : e ∈ T
  · exact .inl (insert_eq_of_mem he ▸ hne)
  · exact .inr he

theorem changed_erase [DecidableEq E] (hTS : T ⊆ S) (he : e ∈ T) : T.erase e ≠ S := by
  intro heq
  exact notMem_erase e T (heq ▸ hTS he)

/-- What an operation that changes one set leaves: the other sets, and all vectors but the one that
the set has. -/
structure Changes (set : ℕ) (h h' : Heap E) : Prop where
  length : h'.ssets.length = h.ssets.length
  others : ∀ j ≠ set, h'.ssets[j]? = h.ssets[j]?
  vectors : h.vectors.length ≤ h'.vectors.length
  frame : ∀ a < h.vectors.length, (∀ s, h.ssets[set]? = some s → s.vector ≠ a) →
    h'.vectors[a]? = h.vectors[a]?
  own : ∀ s', h'.ssets[set]? = some s' → h.vectors.length ≤ s'.vector ∨ ∃ s,
    h.ssets[set]? = some s ∧ s'.vector = s.vector

theorem Changes.refl (set : ℕ) (h : Heap E) : Changes set h h where
  length := rfl
  others _ _ := rfl
  vectors := Nat.le_refl _
  frame _ _ _ := rfl
  own s hs := .inr ⟨s, hs, rfl⟩

variable {set : ℕ} {h : Heap E}

theorem Changes.trans {h' h'' : Heap E} (h1 : Changes set h h') (h2 : Changes set h' h'') :
    Changes set h h'' where
  length := h2.length.trans h1.length
  others j hj := (h2.others j hj).trans (h1.others j hj)
  vectors := h1.vectors.trans h2.vectors
  frame a ha hne := by
    rw [h2.frame a (ha.trans_le h1.vectors), h1.frame a ha hne]
    intro s' hs' heq
    rcases h1.own s' hs' with hle | ⟨s, hs, heq'⟩
    · omega
    · exact hne s hs (heq'.symm.trans heq)
  own s'' hs'' := by
    rcases h2.own s'' hs'' with hle | ⟨s', hs', heq⟩
    · exact .inl (h1.vectors.trans hle)
    · rw [heq]
      exact h1.own s' hs'

variable {s s' : Sset}

theorem changes_setSset (hs : h.ssets[set]? = some s) (hvector : s'.vector = s.vector) :
    Changes set h (h.setSset set s') where
  length := length_set ..
  others j hj := getElem?_set_ne (Ne.symm hj)
  vectors := Nat.le_refl _
  frame _ _ _ := rfl
  own t ht := by
    obtain rfl : s' = t := Option.some.inj ((getElem?_set_self hs).symm.trans ht)
    exact .inr ⟨s, hs, hvector⟩

theorem changes_set (hs : h.ssets[set]? = some s) (hvector : s'.vector = s.vector)
    (c : Cell E) : Changes set h ((h.setSset set s').setAref s.vector i c) :=
  { changes_setSset hs hvector with
    vectors := by simp [Heap.setAref, Heap.setSset]
    frame := fun a _ hne => getElem?_modify_ne _ _ (hne s hs) }

variable [SsetElement E]

/-! ## Probe sequences -/

/-- The cell of the probe `k` for an element. -/
def cellAt (n : ℕ) (e : E) (k : ℕ) : ℕ :=
  position n (ssetHash1 e) (ssetHash2 e) k

theorem coprime_ssetHash2 (e : E) (bits : ℕ) : (ssetHash2 e).Coprime (2 ^ bits) := by
  apply Nat.Coprime.pow_right
  apply Odd.coprime_two_right
  rw [odd_iff, ssetHash2, or_mod_two_eq_one]
  exact .inl rfl

theorem mask_and {n bits : ℕ} (hn : n = 2 ^ bits) (x : ℕ) : (n - 1) &&& x = x % n := by
  rw [hn, Nat.and_comm, and_two_pow_sub_one_eq_mod]

section Probes
variable {v : List (Cell E)} {bits : ℕ} (hv : v.length = 2 ^ bits) {e : E}
include hv

theorem cellAt_zero : (v.length - 1) &&& ssetHash1 e = cellAt v.length e 0 := by
  rw [mask_and hv, cellAt, position, Nat.zero_mul, Nat.add_zero]

theorem cellAt_succ (k : ℕ) :
    (v.length - 1) &&& (cellAt v.length e k + ssetHash2 e) = cellAt v.length e (k + 1) := by
  rw [mask_and hv, cellAt, cellAt, position_succ]

theorem cellAt_lt (k : ℕ) : cellAt v.length e k < v.length := by
  apply position_lt
  rw [hv]
  exact Nat.two_pow_pos bits

theorem exists_end (hunused : .unused ∈ v) : ∃ k < v.length,
    (v[cellAt v.length e k]? = some .unused ∨ v[cellAt v.length e k]? = some (.element e)) ∧
    ∀ j < k, v[cellAt v.length e j]? ≠ some .unused ∧
      v[cellAt v.length e j]? ≠ some (.element e) := by
  obtain ⟨i, hi⟩ := mem_iff_getElem?.mp hunused
  have hcoprime : (ssetHash2 e).Coprime v.length := by
    rw [hv]
    exact coprime_ssetHash2 _ _
  obtain ⟨k, hk, hend, hbefore⟩ := @exists_first v.length (ssetHash1 e) _ hcoprime
    (fun i => v[i]? = some .unused ∨
      v[i]? = some (.element e)) i (List.getElem?_eq_some_iff.mp hi).1 (.inl hi)
  exact ⟨k, hk, hend, fun j hj => not_or.mp (hbefore j hj)⟩

variable [DecidableEq E] in
theorem adjoinLoop_spec {l : ℕ} (hend : v[cellAt v.length e l]? = some .unused ∨
      v[cellAt v.length e l]? = some (.element e))
    (hbefore : ∀ j < l, v[cellAt v.length e j]? ≠ some .unused ∧
      v[cellAt v.length e j]? ≠ some (.element e)) :
    ∀ (n k : ℕ) (d : Option ℕ), k + n = l → ∀ fuel, n < fuel →
      (∀ i, d = some i → v[i]? = some .deleted ∧ ∃ j < l, cellAt v.length e j = i) →
      (v[cellAt v.length e l]? = some (.element e) ∧
        adjoinLoop v e fuel d (cellAt v.length e k) = some (.found (cellAt v.length e l))) ∨
      (v[cellAt v.length e l]? = some .unused ∧ ∃ d',
        adjoinLoop v e fuel d (cellAt v.length e k) =
          some (.missing d' (cellAt v.length e l)) ∧
        ∀ i, d' = some i → v[i]? = some .deleted ∧ ∃ j < l, cellAt v.length e j = i)
  | 0, k, d, hkl, fuel + 1, _, hd => by
    obtain rfl : k = l := hkl
    rcases hend with hunused | helement
    · exact .inr ⟨hunused, d, by simp [adjoinLoop, hunused], hd⟩
    · exact .inl ⟨helement, by simp [adjoinLoop, helement]⟩
  | n + 1, k, d, hkl, fuel + 1, hfuel, hd => by
    have hk : k < l := by omega
    have ih := fun d' hd' =>
      adjoinLoop_spec hend hbefore n (k + 1) d' (by omega) fuel (by omega) hd'
    obtain ⟨hne, hne'⟩ := hbefore k hk
    have hlt := cellAt_lt hv (e := e) k
    simp only [adjoinLoop, cellAt_succ hv]
    match hc : v[cellAt v.length e k]? with
    | none => exact absurd (List.getElem?_eq_none_iff.mp hc) (by omega)
    | some .unused => exact absurd hc hne
    | some .deleted =>
      refine ih _ fun i hi => ?_
      obtain rfl := Option.some.inj hi
      exact ⟨hc, k, hk, rfl⟩
    | some (.element current) =>
      have hcurrent : current ≠ e := fun heq => hne' (heq ▸ hc)
      simp only [if_neg hcurrent]
      exact ih d hd

end Probes

variable [DecidableEq E] in
theorem findLoop_eq (v : List (Cell E)) (e : E) : ∀ (fuel : ℕ) (d : Option ℕ) (hash : ℕ),
    findLoop v e fuel hash = (adjoinLoop v e fuel d hash).map fun
      | .found index => some index
      | .missing _ _ => none
  | 0, _, _ => rfl
  | fuel + 1, d, hash => by
    rw [findLoop, adjoinLoop]
    match v[hash]? with
    | none => rfl
    | some .unused => rfl
    | some .deleted => exact findLoop_eq v e fuel _ _
    | some (.element current) =>
      dsimp only
      split
      · rfl
      · exact findLoop_eq v e fuel _ _

/-! ## Vectors -/

/-- The elements of a vector are a finite set. -/
structure Cells (v : List (Cell E)) (S : Finset E) : Prop where
  mem : ∀ e, e ∈ S ↔ ∃ i : ℕ, v[i]? = some (.element e)
  unique : ∀ (i j : ℕ) e, v[i]? = some (.element e) → v[j]? = some (.element e) → i = j
  reaches : ∀ (i : ℕ) e, v[i]? = some (.element e) → ∃ k, cellAt v.length e k = i ∧
    ∀ j < k, v[cellAt v.length e j]? ≠ some .unused

theorem Cells.replicate (n : ℕ) : Cells (List.replicate n (.unused : Cell E)) ∅ where
  mem e := by simp [getElem?_replicate]
  unique i j e hi := by simp [getElem?_replicate] at hi
  reaches i e hi := by simp [getElem?_replicate] at hi

section Vectors
variable {v : List (Cell E)} {S : Finset E} {e : E} {i : ℕ}

variable [DecidableEq E]

theorem Cells.store (h : Cells v S) (he : e ∉ S)
    (hi : v[cellAt v.length e k]? = some old) (hold : ∀ e', old ≠ .element e')
    (hbefore : ∀ j < k, v[cellAt v.length e j]? ≠ some .unused) :
    Cells (v.set (cellAt v.length e k) (.element e)) (insert e S) := by
  set i := cellAt v.length e k with hik
  have hself : (v.set i (.element e))[i]? = some (.element e) := getElem?_set_self hi
  have hother : ∀ (j : ℕ) e', (v.set i (.element e))[j]? = some (.element e') ↔ j = i ∧ e' = e ∨
      v[j]? = some (.element e') := by
    intro j e'
    by_cases hj : j = i
    · subst hj
      rw [hself, hi]
      simp [hold e', eq_comm]
    · rw [getElem?_set_of_ne hj]
      simp [hj]
  refine ⟨fun e' => ?_, fun a b e' ha hb => ?_, fun a e' ha => ?_⟩
  · simp only [Finset.mem_insert, hother, h.mem, exists_or, exists_eq_left]
  · have hnot : ∀ j : ℕ, v[j]? = some (.element e) → False := fun j hj => he ((h.mem e).mpr ⟨j, hj⟩)
    rcases (hother a e').mp ha with ⟨rfl, rfl⟩ | ha
      <;> rcases (hother b e').mp hb with ⟨rfl, he'⟩ | hb
    · rfl
    · exact absurd hb (hnot b)
    · exact absurd (he' ▸ ha) (hnot a)
    · exact h.unique a b e' ha hb
  · rw [length_set]
    rcases (hother a e').mp ha with ⟨rfl, rfl⟩ | ha
    · exact ⟨k, hik.symm, fun j hj => used_set (by simp) (hbefore j hj)⟩
    · obtain ⟨k', hk', hbefore'⟩ := h.reaches a e' ha
      exact ⟨k', hk', fun j hj => used_set (by simp) (hbefore' j hj)⟩

theorem Cells.bury (h : Cells v S) (hi : v[i]? = some (.element e)) :
    Cells (v.set i .deleted) (S.erase e) := by
  have hother : ∀ (j : ℕ) e', (v.set i .deleted)[j]? = some (.element e') ↔ j ≠ i ∧
      v[j]? = some (.element e') := by
    intro j e'
    by_cases hj : j = i
    · subst hj
      rw [getElem?_set_self hi]
      simp
    · rw [getElem?_set_of_ne hj]
      simp [hj]
  refine ⟨fun e' => ?_, fun a b e' ha hb => ?_, fun a e' ha => ?_⟩
  · rw [Finset.mem_erase, h.mem]
    constructor
    · rintro ⟨hne, j, hj⟩
      refine ⟨j, (hother j e').mpr ⟨?_, hj⟩⟩
      rintro rfl
      rw [hi] at hj
      exact hne (by simpa using hj.symm)
    · rintro ⟨j, hj⟩
      obtain ⟨hne, hj⟩ := (hother j e').mp hj
      refine ⟨?_, j, hj⟩
      rintro rfl
      exact hne (h.unique _ _ _ hj hi)
  · exact h.unique a b e' ((hother a e').mp ha).2 ((hother b e').mp hb).2
  · rw [length_set]
    obtain ⟨k, hk, hbefore⟩ := h.reaches a e' ((hother a e').mp ha).2
    exact ⟨k, hk, fun j hj => used_set (by simp) (hbefore j hj)⟩

theorem Cells.outcome (h : Cells v S) {bits : ℕ} (hv : v.length = 2 ^ bits)
    (hunused : .unused ∈ v) (e : E) : (e ∈ S ∧ ∃ i : ℕ, v[i]? = some (.element e) ∧
      adjoinLoop v e v.length none ((v.length - 1) &&& ssetHash1 e) = some (.found i)) ∨
    (e ∉ S ∧ ∃ d k old, v[cellAt v.length e k]? = some old ∧
      (∀ j < k, v[cellAt v.length e j]? ≠ some .unused) ∧
      (d = some (cellAt v.length e k) ∧ old = .deleted ∨ d = none ∧ old = .unused) ∧ ∃ hash,
      adjoinLoop v e v.length none ((v.length - 1) &&& ssetHash1 e) = some (.missing d hash) ∧
      (d = none → hash = cellAt v.length e k)) := by
  obtain ⟨l, hl, hend, hbefore⟩ := exists_end hv (e := e) hunused
  rw [cellAt_zero hv]
  rcases adjoinLoop_spec hv hend hbefore l 0 none (Nat.zero_add l) v.length hl (by simp) with
    ⟨helement, hloop⟩ | ⟨hunused, d, hloop, hd⟩
  · exact .inl ⟨(h.mem e).mpr ⟨_, helement⟩, _, helement, hloop⟩
  refine .inr ⟨fun he => ?_, ?_⟩
  · obtain ⟨i, hi⟩ := (h.mem e).mp he
    obtain ⟨k, rfl, hk⟩ := h.reaches i e hi
    rcases lt_trichotomy k l with hkl | rfl | hkl
    · exact (hbefore k hkl).2 hi
    · rw [hunused] at hi
      exact absurd hi (by simp)
    · exact hk l hkl hunused
  · match d, hd, hloop with
    | none, _, hloop => exact ⟨none, l, _, hunused, fun j hj => (hbefore j hj).1, .inr ⟨rfl, rfl⟩,
      _, hloop, fun _ => rfl⟩
    | some i, hd, hloop =>
      obtain ⟨hi, j, hj, rfl⟩ := hd i rfl
      exact ⟨some _, j, _, hi, fun j' hj' => (hbefore j' (hj'.trans hj)).1, .inl ⟨rfl, rfl⟩,
        _, hloop, by simp⟩

end Vectors

/-! ## Sets -/

/-- The cells that are left unused when `free` is 0. -/
def reserve (n : ℕ) : ℕ := if n = 0 then 0 else max 1 (n / ssetRehashThreshold)

/-- A set in whose vector `r` cells more than `free` are unused. -/
structure Table (r : ℕ) (v : List (Cell E)) (s : Sset) (S : Finset E) : Prop where
  cells : Cells v S
  count : s.count = S.card
  unused : v.countP Cell.isUnused = s.free + r
  length : v = [] ∨ ∃ bits, v.length = 2 ^ (bits + 1)

section Sets
variable {v : List (Cell E)} {r : ℕ} {s : Sset} {S : Finset E} {e : E}

theorem Table.unused_pos (h : Table (reserve v.length) v s S) (hv : v ≠ []) : .unused ∈ v := by
  apply unused_mem
  have hlength : v.length ≠ 0 := fun h0 => hv (length_eq_zero_iff.mp h0)
  rw [h.unused, reserve, if_neg hlength]
  omega

theorem Table.bits (h : Table r v s S) (hfree : 0 < s.free) : ∃ bits, v.length = 2 ^ bits := by
  rcases h.length with rfl | ⟨bits, hbits⟩
  · have := h.unused
    simp at this
    omega
  · exact ⟨_, hbits⟩

variable [DecidableEq E]

theorem Table.store (h : Table r v s S) (he : e ∉ S)
    (hi : v[cellAt v.length e k]? = some old) (hold : ∀ e', old ≠ .element e')
    (hbefore : ∀ j < k, v[cellAt v.length e j]? ≠ some .unused) (free : ℕ)
    (hfree : s.free = free + if old.isUnused then 1 else 0) :
    Table r (v.set (cellAt v.length e k) (.element e))
      { s with count := s.count + 1, free := free } (insert e S) where
  cells := h.cells.store he hi hold hbefore
  count := by rw [card_insert_of_notMem he, h.count]
  unused := by
    have := countP_set Cell.isUnused (c := .element e) hi
    have := h.unused
    simp only [Cell.isUnused, Bool.false_eq_true, if_false] at *
    omega
  length := by
    rw [length_set]
    refine .inr (h.length.resolve_left ?_)
    rintro rfl
    simp at hi

theorem Table.bury (h : Table r v s S) {i : ℕ} (hi : v[i]? = some (.element e)) :
    ∃ count, decf s.count = some count ∧ Table r (v.set i .deleted) { s with count := count }
      (S.erase e) := by
  have he : e ∈ S := (h.cells.mem e).mpr ⟨i, hi⟩
  have hcard := card_erase_add_one he
  refine ⟨(S.erase e).card, by rw [h.count, ← hcard, decf], h.cells.bury hi, rfl, ?_, ?_⟩
  · have := countP_set Cell.isUnused (c := .deleted) hi
    have := h.unused
    simp only [Cell.isUnused, Bool.false_eq_true, if_false] at *
    omega
  · rw [length_set]
    refine .inr (h.length.resolve_left ?_)
    rintro rfl
    simp at hi

end Sets

/-- A set of the heap with a vector of `n` cells, of which at least `free` are free. -/
def Holds (n r : ℕ) (h : Heap E) (set : ℕ) (S : Finset E) (free : ℕ) : Prop :=
  ∃ s v, h.ssets[set]? = some s ∧ h.vectors[s.vector]? = some v ∧ v.length = n ∧
    Table r v s S ∧ free ≤ s.free

theorem holds_set {n r : ℕ}
    (hs : h.ssets[set]? = some s) (hvector : s'.vector = s.vector)
    (hv : h.vectors[s.vector]? = some v)
    (hn : v.length = n) (htable : Table r (v.set i c) s' S) (hfree : free ≤ s'.free) :
    Holds n r ((h.setSset set s').setAref s.vector i c) set S free := by
  refine ⟨s', v.set i c, getElem?_set_self hs, ?_, by rwa [length_set], htable, hfree⟩
  rw [hvector]
  simp [Heap.setAref, Heap.setSset, hv]

/-! ## All sets -/

section AllSets
variable {h h' : Heap E} {set : ℕ} {S : Finset E} {v : List (Cell E)} {sets : List (Finset E)}

/-- The sets of the heap are the finite sets. -/
structure Represents (h : Heap E) (sets : List (Finset E)) : Prop where
  length : h.ssets.length = sets.length
  holds : ∀ set S, sets[set]? = some S → ∃ n, Holds n (reserve n) h set S 0
  own : ∀ (i j : ℕ) (s t : Sset), h.ssets[i]? = some s → h.ssets[j]? = some t →
    s.vector = t.vector → i = j

theorem Represents.vector_lt (hr : Represents h sets) {s : Sset} (hs : h.ssets[set]? = some s) :
    s.vector < h.vectors.length := by
  have hlt := (List.getElem?_eq_some_iff.mp hs).1
  obtain ⟨n, t, v, ht, hv, -⟩ := hr.holds set _ (getElem?_eq_getElem (hr.length ▸ hlt))
  obtain rfl : s = t := Option.some.inj (hs.symm.trans ht)
  exact (List.getElem?_eq_some_iff.mp hv).1

theorem Represents.change (hr : Represents h sets) (hc : Changes set h h')
    (hh : Holds n (reserve n) h' set S 0) : Represents h' (sets.set set S) where
  length := by rw [hc.length, hr.length, length_set]
  holds j T hT := by
    by_cases hj : j = set
    · subst hj
      have hlt : j < sets.length := by simpa using (List.getElem?_eq_some_iff.mp hT).1
      rw [List.getElem?_set_self hlt] at hT
      obtain rfl := Option.some.inj hT
      exact ⟨n, hh⟩
    · rw [getElem?_set_of_ne hj] at hT
      obtain ⟨n, s, v, hs, hv, hn, ht, hfree⟩ := hr.holds j T hT
      refine ⟨n, s, v, (hc.others j hj).trans hs, ?_, hn, ht, hfree⟩
      rw [hc.frame _ (hr.vector_lt hs)]
      · exact hv
      · exact fun t ht heq => hj (hr.own j set s t hs ht heq.symm)
  own := by
    have hcross : ∀ j s t, j ≠ set → h'.ssets[set]? = some s → h'.ssets[j]? = some t →
        s.vector ≠ t.vector := by
      intro j s t hj hs ht heq
      rw [hc.others j hj] at ht
      rcases hc.own s hs with hle | ⟨s', hs', heq'⟩
      · have := hr.vector_lt ht
        omega
      · exact hj (hr.own j set t s' ht hs' (heq.symm.trans heq'))
    intro i j s t hs ht heq
    by_cases hi : i = set <;> by_cases hj : j = set
    · rw [hi, hj]
    · exact absurd heq (hcross j s t hj (hi ▸ hs) ht)
    · exact absurd heq.symm (hcross i t s hi (hj ▸ ht) hs)
    · exact hr.own i j s t ((hc.others i hi).symm.trans hs) ((hc.others j hj).symm.trans ht) heq

theorem Represents.make (hr : Represents h sets) {free count : ℕ}
    (ht : Table (reserve v.length) v ⟨h.vectors.length, free, count⟩ S) :
    Represents (h.makeSset v free count) (sets ++ [S]) where
  length := by simp [Heap.makeSset, hr.length]
  holds j T hT := by
    rcases Nat.lt_trichotomy j sets.length with hj | rfl | hj
    · rw [getElem?_append_left hj] at hT
      obtain ⟨n, s, w, hs, hw, hn, ht, hfree⟩ := hr.holds j T hT
      exact ⟨n, s, w, (getElem?_append_left (hr.length ▸ hj)).trans hs,
        (getElem?_append_left (hr.vector_lt hs)).trans hw, hn, ht, hfree⟩
    · obtain rfl : S = T := by simpa using hT
      exact ⟨v.length, _, v, by rw [← hr.length]; simp [Heap.makeSset], by simp [Heap.makeSset],
        rfl, ht, Nat.zero_le _⟩
    · rw [List.getElem?_eq_none_iff.mpr (by simp; omega)] at hT
      exact absurd hT (by simp)
  own i j s t hs ht heq := by
    have hcases : ∀ (k : ℕ) (u : Sset),
      (h.ssets ++ [⟨h.vectors.length, free, count⟩])[k]? = some u →
        h.ssets[k]? = some u ∧ u.vector < h.vectors.length ∨ k = h.ssets.length ∧
        u.vector = h.vectors.length := by
      intro k u hu
      rcases Nat.lt_trichotomy k h.ssets.length with hk | rfl | hk
      · rw [getElem?_append_left hk] at hu
        exact .inl ⟨hu, hr.vector_lt hu⟩
      · obtain rfl : (⟨h.vectors.length, free, count⟩ : Sset) = u := by simpa using hu
        exact .inr ⟨rfl, rfl⟩
      · rw [List.getElem?_eq_none_iff.mpr (by simp; omega)] at hu
        exact absurd hu (by simp)
    rcases hcases i s hs with ⟨hs, hs'⟩ | ⟨hs, hs'⟩
      <;> rcases hcases j t ht with ⟨ht, ht'⟩ | ⟨ht, ht'⟩
    · exact hr.own i j s t hs ht heq
    · omega
    · omega
    · omega

theorem Represents.sset (hr : Represents h sets) (hset : sets[set]? = some S) :
    ∃ s v, h.ssets[set]? = some s ∧ h.vectors[s.vector]? = some v ∧
      Table (reserve v.length) v s S := by
  obtain ⟨n, s, v, hs, hv, rfl, ht, -⟩ := hr.holds set S hset
  exact ⟨s, v, hs, hv, ht⟩

end AllSets

/-! ## Loops over a vector -/

section Insertion
variable [DecidableEq E] {h : Heap E} {set : ℕ} {S : Finset E} {v : List (Cell E)}

theorem Cells.before_length (hc : Cells v S) : before v v.length = S := by
  ext e
  rw [mem_before, hc.mem]
  constructor
  · rintro ⟨j, -, hj⟩
    exact ⟨j, hj⟩
  · rintro ⟨j, hj⟩
    exact ⟨j, (List.getElem?_eq_some_iff.mp hj).1, hj⟩

theorem Cells.notMem_before (hc : Cells v S) {i : ℕ} {e : E} (hi : v[i]? = some (.element e)) :
    e ∉ before v i := by
  rw [mem_before]
  rintro ⟨j, hj, hj'⟩
  exact hj.ne (hc.unique j i e hj' hi)

omit [SsetElement E] in
/-- The rule of the loop, with an invariant on the elements that were come to. -/
theorem across_spec {a : ℕ} {I : ℕ → Finset E → Bool → Heap E → Prop}
    (hv : h.vectors[a]? = some v) (hzero : I 0 ∅ false h)
    (hread : ∀ i T m h', I i T m h' → ∃ v', h'.vectors[a]? = some v' ∧ v'[i]? = v[i]?)
    (hother : ∀ i T m h', I i T m h' → I (i + 1) T m h')
    (helement : ∀ i m h' e, I i (before v i) m h' → v[i]? = some (.element e) →
      ∃ changed h'', b i e h' = some (changed, h'') ∧ I (i + 1) (insert e (before v i))
        (m || changed) h'') :
    ∃ m h', across a b h = some (m, h') ∧ I v.length (before v v.length) m h' := by
  have hloop : ∀ n i m h', i + n = v.length → I i (before v i) m h' →
      ∃ m' h'', acrossFrom a b n i m h' = some (m', h'') ∧
        I v.length (before v v.length) m' h'' := by
    intro n
    induction n with
    | zero =>
      intro i m h' hi hI
      obtain rfl : i = v.length := hi
      exact ⟨m, h', rfl, hI⟩
    | succ n ih =>
      intro i m h' hi hI
      obtain ⟨v', hv', hcell⟩ := hread _ _ _ _ hI
      obtain ⟨c, hc⟩ : ∃ c, v[i]? = some c := ⟨v[i], getElem?_eq_getElem (by omega)⟩
      simp only [acrossFrom, hv', hcell, hc, bind_eq_bind, bind_some]
      match c, hc with
      | .element e, hc =>
        obtain ⟨changed, h'', hbody, hI'⟩ := helement i m h' e hI hc
        rw [← before_succ hc] at hI'
        simp only [hbody, bind_some]
        exact ih (i + 1) _ h'' (by omega) hI'
      | .unused, hc | .deleted, hc =>
        have hI' := hother _ _ _ _ hI
        rw [← before_succ_of_not (by simp [hc])] at hI'
        exact ih (i + 1) m h' (by omega) hI'
  simp only [across, hv, bind_eq_bind, bind_some]
  exact hloop v.length 0 false h (Nat.zero_add _) (by simpa [before] using hzero)

/-! ## Insertion -/

theorem adjoinProbe_spec {n r free : ℕ} (hh : Holds n r h set S (free + 1)) (e : E) :
    ∃ h', adjoinProbe e set h = some (decide (e ∉ S), h') ∧ Holds n r h' set (insert e S) free ∧
      Changes set h h' ∧ (e ∈ S → h' = h) := by
  obtain ⟨s, v, hs, hv, hn, ht, hfree⟩ := hh
  obtain ⟨bits, hbits⟩ := ht.bits (by omega)
  have hunused : Cell.unused ∈ v := unused_mem (by have := ht.unused; omega)
  simp only [adjoinProbe, hs, hv, bind_eq_bind, bind_some]
  rcases ht.cells.outcome hbits hunused e with ⟨he, i, hi, hloop⟩ | ⟨he, d, k, old, hold, hbefore,
    hd, hash, hloop, hhash⟩
  · refine ⟨h, by simp [hloop, he], ?_, .refl set h, fun _ => rfl⟩
    rw [insert_eq_of_mem he]
    exact ⟨s, v, hs, hv, hn, ht, by omega⟩
  simp only [hloop, bind_some]
  rcases hd with ⟨rfl, rfl⟩ | ⟨rfl, rfl⟩
  · refine ⟨(h.setSset set { s with count := s.count + 1 }).setAref s.vector
      (cellAt v.length e k) (.element e), by simp [he], ?_, changes_set hs (by rfl) _,
      fun he' => absurd he' he⟩
    exact holds_set hs (by rfl) hv hn
      (ht.store he hold (by simp) hbefore s.free (by simp [Cell.isUnused])) (le_of_succ_le hfree)
  obtain ⟨free', hfree'⟩ : ∃ free', s.free = free' + 1 := exists_eq_add_one.mpr (by omega)
  obtain rfl := hhash rfl
  refine ⟨(h.setSset set { s with count := s.count + 1, free := free' }).setAref s.vector
    (cellAt v.length e k) (.element e), by simp [he, hfree', decf], ?_, changes_set hs (by rfl) _,
    fun he' => absurd he' he⟩
  exact holds_set hs (by rfl) hv hn
    (ht.store he hold (by simp) hbefore free' (by simp [Cell.isUnused, hfree']))
    (by dsimp only; omega)

theorem ssetAdjoin_of_free {n r free : ℕ} (hh : Holds n r h set S (free + 1)) (depth : ℕ) (e : E) :
    ssetAdjoin (depth + 1) e set h = adjoinProbe e set h := by
  obtain ⟨s, v, hs, -, -, -, hfree⟩ := hh
  have hne : s.free ≠ 0 := by omega
  simp only [ssetAdjoin, hs, hne, if_false, bind_eq_bind, bind_some]

/-- The cells of the vector that a set grows to. -/
def grown (n : ℕ) : ℕ := if n = 0 then 2 else n * 2

theorem grown_spec (hn : n = 0 ∨ ∃ bits, n = 2 ^ (bits + 1)) :
    (∃ bits, grown n = 2 ^ (bits + 1)) ∧ reserve (grown n) = max 1 (grown n / ssetRehashThreshold) ∧
      reserve (grown n) + 1 ≤ grown n - n := by
  rcases hn with rfl | ⟨bits, rfl⟩
  · exact ⟨⟨0, rfl⟩, rfl, by decide⟩
  have hpos : 0 < 2 ^ bits := Nat.two_pow_pos bits
  have hgrown : grown (2 ^ (bits + 1)) = 2 ^ (bits + 2) := by
    rw [grown, if_neg (by positivity), ← pow_succ]
  have hreserve : reserve (2 ^ (bits + 2)) = max 1 (2 ^ (bits + 2) / ssetRehashThreshold) := by
    rw [reserve, if_neg (by positivity)]
  refine ⟨⟨bits + 1, hgrown⟩, by rw [hgrown, hreserve], ?_⟩
  rw [hgrown, hreserve, show ssetRehashThreshold = 4 from rfl, pow_succ 2 (bits + 1),
    pow_succ 2 bits]
  omega

theorem ssetGrow_spec (hh : Holds n (reserve n) h set S 0) :
    ∃ h', ssetGrow (ssetAdjoin 1) set h = some h' ∧
      Holds (grown n) (reserve (grown n)) h' set S 1 ∧ Changes set h h' ∧
      ∀ a < h.vectors.length, h'.vectors[a]? = h.vectors[a]? := by
  obtain ⟨s, v, hs, hv, rfl, ht, -⟩ := hh
  obtain ⟨hbits, hreserve, hroom⟩ :=
    grown_spec (n := v.length) (ht.length.imp_left (congrArg List.length))
  let s' : Sset := ⟨h.vectors.length, grown v.length, 0⟩
  let new : Heap E := ⟨h.vectors ++ [List.replicate (grown v.length) .unused], h.ssets.set set s'⟩
  have hvector : s.vector < h.vectors.length := (List.getElem?_eq_some_iff.mp hv).1
  have hset : new.ssets[set]? = some s' := getElem?_set_self hs
  have hnew : Holds (grown v.length) 0 new set ∅ (grown v.length) := by
    refine ⟨s', List.replicate (grown v.length) .unused, hset, by simp [new, s'], length_replicate,
      ⟨.replicate _, rfl, ?_, .inr ?_⟩, le_rfl⟩
    · simp [s', countP_replicate, Cell.isUnused]
    · simpa using hbits
  have hkept : ∀ h', Changes set new h' → ∀ a < h.vectors.length,
      h'.vectors[a]? = h.vectors[a]? := by
    intro h' hc a ha
    rw [hc.frame a (by simp [new]; omega)]
    · exact getElem?_append_left ha
    · intro t ht
      obtain rfl : s' = t := Option.some.inj (hset.symm.trans ht)
      exact ha.ne'
  have hchanges : ∀ h', Changes set new h' → Changes set h h' := fun h' hc => {
    length := hc.length.trans (length_set ..)
    others := fun j hj => (hc.others j hj).trans (getElem?_set_ne (Ne.symm hj))
    vectors := (by simp [new] : h.vectors.length ≤ new.vectors.length).trans hc.vectors
    frame := fun a ha _ => hkept h' hc a ha
    own := fun t ht => .inl (by
      rcases hc.own t ht with hle | ⟨t', ht', heq⟩
      · exact (by simp [new] : h.vectors.length ≤ new.vectors.length).trans hle
      · obtain rfl : s' = t' := Option.some.inj (hset.symm.trans ht')
        exact heq.ge) }
  obtain ⟨m, h', hloop, ⟨t, w, hts, hw, hlength, htable, hfree⟩, hc⟩ := across_spec
    (I := fun i T _ h' => Holds (grown v.length) 0 h' set T (grown v.length - i) ∧
      Changes set new h')
    (b := fun _ e h => ssetAdjoin 1 e set h) ((getElem?_append_left hvector).trans hv)
    ⟨hnew, .refl set new⟩ (fun i T _ h' hI => ⟨v, (hkept h' hI.2 _ hvector).trans hv, rfl⟩)
    (fun i T _ h' ⟨⟨t, w, ht, hw, hlength, htable, hfree⟩, hc⟩ =>
      ⟨⟨t, w, ht, hw, hlength, htable, by omega⟩, hc⟩) (by
      rintro i - h' e ⟨hholds, hc⟩ hi
      have hlt := (List.getElem?_eq_some_iff.mp hi).1
      rw [show grown v.length - i = grown v.length - (i + 1) + 1 by omega] at hholds
      obtain ⟨h'', hadjoin, hholds', hc', -⟩ := adjoinProbe_spec hholds e
      exact ⟨_, h'', (ssetAdjoin_of_free hholds 0 e).trans hadjoin, hholds', hc.trans hc'⟩)
  rw [ht.cells.before_length] at htable
  have hle : ¬ t.free < max 1 (grown v.length / ssetRehashThreshold) := by omega
  let t' : Sset := { t with free := t.free - max 1 (grown v.length / ssetRehashThreshold) }
  refine ⟨h'.setSset set t', ?_, ⟨t', w, getElem?_set_self hts, hw, hlength,
    ⟨htable.cells, htable.count, ?_, htable.length⟩, ?_⟩,
    (hchanges h' hc).trans (changes_setSset hts (by rfl)), hkept h' hc⟩
  · simp only [ssetGrow, hs, hv, bind_eq_bind, bind_some]
    rw [show (if v.length = 0 then 2 else v.length * 2) = grown v.length from rfl]
    show (across s.vector (fun _ e h => ssetAdjoin 1 e set h) new).bind _ = _
    rw [hloop, bind_some]
    simp only [hts, hle, if_false, bind_some]
    rfl
  · have := htable.unused
    rw [hreserve]
    dsimp only [t']
    omega
  · dsimp only [t']
    omega

theorem ssetAdjoin_spec (hh : Holds n (reserve n) h set S 0) (e : E) :
    ∃ h' n', ssetAdjoin 2 e set h = some (decide (e ∉ S), h') ∧
      Holds n' (reserve n') h' set (insert e S) 0 ∧ Changes set h h' ∧
      (e ∈ S → ∀ a < h.vectors.length, h'.vectors[a]? = h.vectors[a]?) := by
  obtain ⟨s, v, hs, hv, hn, ht, -⟩ := id hh
  by_cases hfree : s.free = 0
  · obtain ⟨h1, hgrow, hh1, hc1, hkept⟩ := ssetGrow_spec hh
    obtain ⟨h', hprobe, hh', hc, hsame⟩ := adjoinProbe_spec hh1 e
    refine ⟨h', grown n, ?_, hh', hc1.trans hc, fun he => hsame he ▸ hkept⟩
    rw [ssetAdjoin]
    simp only [hs, hfree, if_true, hgrow, bind_eq_bind, bind_some]
    exact hprobe
  · have hh1 : Holds n (reserve n) h set S (0 + 1) := ⟨s, v, hs, hv, hn, ht, by omega⟩
    obtain ⟨h', hprobe, hh', hc, hsame⟩ := adjoinProbe_spec hh1 e
    exact ⟨h', n, (ssetAdjoin_of_free hh1 1 e).trans hprobe, hh', hc, fun he a _ => hsame he ▸ rfl⟩

theorem find_spec (hh : Holds n (reserve n) h set S 0) (e : E) :
    ∃ s v, h.ssets[set]? = some s ∧ h.vectors[s.vector]? = some v ∧
      ((e ∈ S ∧ ∃ i : ℕ, v[i]? = some (.element e) ∧ find e set h = some (some i)) ∨
        (e ∉ S ∧ find e set h = some none)) := by
  obtain ⟨s, v, hs, hv, rfl, ht, -⟩ := hh
  refine ⟨s, v, hs, hv, ?_⟩
  simp only [find, hs, hv, bind_eq_bind, bind_some]
  by_cases hnil : v = []
  · subst hnil
    exact .inr ⟨by simp [ht.cells.mem], rfl⟩
  have hlength : v.length ≠ 0 := fun h0 => hnil (length_eq_zero_iff.mp h0)
  obtain ⟨bits, hbits⟩ := ht.length.resolve_left hnil
  rw [if_neg hlength, findLoop_eq v e v.length none]
  rcases ht.cells.outcome hbits (ht.unused_pos hnil) e with ⟨he, i, hi, hloop⟩ | ⟨he, d, k, old, -,
    -, -, hash, hloop, -⟩
  · exact .inl ⟨he, i, hi, by rw [hloop]; rfl⟩
  · exact .inr ⟨he, by rw [hloop]; rfl⟩

theorem ssetMember_spec (hh : Holds n (reserve n) h set S 0) (e : E) :
    ssetMember e set h = some (decide (e ∈ S)) := by
  obtain ⟨-, -, -, -, ⟨he, i, -, hfind⟩ | ⟨he, hfind⟩⟩ :=
    find_spec hh e <;> simp [ssetMember, hfind, he]

theorem bury_spec (hh : Holds n (reserve n) h set S 0) {s : Sset} {i : ℕ} {e : E}
    (hs : h.ssets[set]? = some s) (hv : h.vectors[s.vector]? = some v)
    (hi : v[i]? = some (.element e)) :
    ∃ h' s', bury set i h = some h' ∧ Holds n (reserve n) h' set (S.erase e) 0 ∧ Changes set h h' ∧
      h'.ssets[set]? = some s' ∧ s'.vector = s.vector ∧
      h'.vectors[s.vector]? = some (v.set i .deleted) := by
  obtain ⟨t, w, ht, hw, hn, htable, -⟩ := hh
  obtain rfl : s = t := Option.some.inj (hs.symm.trans ht)
  obtain rfl : v = w := Option.some.inj (hv.symm.trans hw)
  obtain ⟨count, hcount, htable'⟩ := htable.bury hi
  refine ⟨_, { s with count := count }, ?_, holds_set hs (by rfl) hv hn htable' (Nat.zero_le _),
    changes_set hs (by rfl) _, getElem?_set_self hs, rfl, by simp [Heap.setAref, Heap.setSset, hv]⟩
  simp only [bury, hs, hcount, bind_eq_bind, bind_some]
  rfl

variable {sets : List (Finset E)} {h' : Heap E}

theorem Represents.member (hr : Represents h sets) (hset : sets[set]? = some S) (e : E) :
    ssetMember e set h = some (decide (e ∈ S)) := by
  obtain ⟨n, hh⟩ := hr.holds set S hset
  exact ssetMember_spec hh e

/-! ## Set operations -/

variable {set1 set2 set3 : ℕ} {S1 S2 S3 : Finset E} {s1 s2 : Sset}

theorem across_adjoin (hr : Represents h sets) (h1 : sets[set1]? = some S1)
    (h2 : sets[set2]? = some S2) (hs2 : h.ssets[set2]? = some s2) (skip : Finset E)
    (hbody : ∀ i T h' e, e ∈ S2 → e ∉ T → Represents h' (sets.set set1 (S1 ∪ (T \ skip))) →
      b i e h' = if e ∈ skip then some (false, h') else ssetAdjoin 2 e set1 h') :
    ∃ h', across s2.vector b h = some (decide (S1 ∪ (S2 \ skip) ≠ S1), h') ∧
      Represents h' (sets.set set1 (S1 ∪ (S2 \ skip))) := by
  obtain ⟨s, v, hs, hv, ht⟩ := hr.sset h2
  obtain rfl : s2 = s := Option.some.inj (hs2.symm.trans hs)
  have hself : ∀ S, (sets.set set1 S)[set1]? = some S := fun S => getElem?_set_self h1
  have hzero : sets.set set1 (S1 ∪ (∅ \ skip)) = sets := by
    rw [empty_sdiff, union_empty]
    exact set_getElem?_self h1
  obtain ⟨m, h', hloop, hr', -, -, rfl⟩ := across_spec (b := b) (I := fun i T m h' =>
      Represents h' (sets.set set1 (S1 ∪ (T \ skip))) ∧ Changes set1 h h' ∧
        h'.vectors[s2.vector]? = some v ∧
        m = decide (S1 ∪ (T \ skip) ≠ S1)) hv ⟨by rwa [hzero], .refl set1 h, hv, by simp⟩
    (fun i T m h' hI => ⟨v, hI.2.2.1, rfl⟩) (fun i T m h' hI => hI) (by
      rintro i m h' e ⟨hr', hc, hv', rfl⟩ hi
      have he2 : e ∈ S2 := (ht.cells.mem e).mpr ⟨i, hi⟩
      have heT := ht.cells.notMem_before hi
      rw [hbody i _ h' e he2 heT hr']
      by_cases hskip : e ∈ skip
      · refine ⟨false, h', if_pos hskip, ?_⟩
        rw [insert_sdiff_of_mem _ hskip, Bool.or_false]
        exact ⟨hr', hc, hv', rfl⟩
      obtain ⟨n, hh⟩ := hr'.holds set1 _ (hself _)
      obtain ⟨h'', n', hadjoin, hh', hc', hkept⟩ := ssetAdjoin_spec hh e
      refine ⟨_, h'', (if_neg hskip).trans hadjoin, ?_⟩
      rw [insert_sdiff_of_notMem _ hskip, union_insert, changed_insert subset_union_left]
      refine ⟨by simpa only [set_set] using hr'.change hc' hh', hc.trans hc', ?_, rfl⟩
      rw [← hv']
      -- the vector of `set1` can only be the one that is scanned if both are one set, which has the
      -- element
      by_cases hsame : ∃ t, h'.ssets[set1]? = some t ∧ t.vector = s2.vector
      · obtain ⟨t, ht', heq⟩ := hsame
        refine hkept ?_ _ ((hr.vector_lt hs2).trans_le hc.vectors)
        rcases hc.own t ht' with hle | ⟨t', hs1, heq'⟩
        · have := hr.vector_lt hs2
          omega
        · obtain rfl := hr.own _ _ t' s2 hs1 hs2 (heq'.symm.trans heq)
          obtain rfl := Option.some.inj (h1.symm.trans h2)
          exact mem_union_left _ he2
      · exact hc'.frame _ ((hr.vector_lt hs2).trans_le hc.vectors) fun t ht' heq =>
          hsame ⟨t, ht', heq⟩)
  rw [ht.cells.before_length] at hloop hr'
  exact ⟨h', hloop, hr'⟩

theorem ssetUnion_spec (hr : Represents h sets) (h1 : sets[set1]? = some S1)
    (h2 : sets[set2]? = some S2) : ∃ h', ssetUnion set1 set2 h = some (decide (S1 ∪ S2 ≠ S1), h') ∧
      Represents h' (sets.set set1 (S1 ∪ S2)) := by
  obtain ⟨s2, v, hs2, -, -⟩ := hr.sset h2
  obtain ⟨h', hloop, hr'⟩ := across_adjoin hr h1 h2 hs2 ∅
    (b := fun _ e h => ssetAdjoin 2 e set1 h) fun i T h' e _ _ _ => by simp
  rw [sdiff_empty] at hloop hr'
  refine ⟨h', ?_, hr'⟩
  simp only [ssetUnion, hs2, bind_eq_bind, bind_some]
  exact hloop

theorem ssetUnionOfDifference_spec (hr : Represents h sets) (h1 : sets[set1]? = some S1)
    (h2 : sets[set2]? = some S2) (h3 : sets[set3]? = some S3) :
    ∃ h', ssetUnionOfDifference set1 set2 set3 h = some (decide (S1 ∪ (S2 \ S3) ≠ S1), h') ∧
      Represents h' (sets.set set1 (S1 ∪ (S2 \ S3))) := by
  obtain ⟨s2, v, hs2, -, -⟩ := hr.sset h2
  obtain ⟨h', hloop, hr'⟩ := across_adjoin hr h1 h2 hs2 S3 (b := fun _ e h => do
      if ← ssetMember e set3 h then return (false, h) else ssetAdjoin 2 e set1 h) (by
    intro i T h' e he2 heT hr'
    obtain ⟨S, hS, hmem⟩ := mem_of_set h1 h3 (e := e) (T := S1 ∪ (T \ S3)) (by simp [heT])
    simp only [hr'.member hS, hmem, bind_eq_bind, bind_some, decide_eq_true_eq]
    rfl)
  refine ⟨h', ?_, hr'⟩
  simp only [ssetUnionOfDifference, hs2, bind_eq_bind, bind_some]
  exact hloop

theorem buryMembers_spec (hr : Represents h sets) (h1 : sets[set1]? = some S1)
    (h2 : sets[set2]? = some S2) (member : Bool) : ∃ h', buryMembers member set1 set2 h =
        some (decide (S1.filter (fun e => decide (e ∈ S2) ≠ member) ≠ S1), h') ∧
      Represents h' (sets.set set1 (S1.filter fun e => decide (e ∈ S2) ≠ member)) := by
  obtain ⟨s, v, hs, hv, ht⟩ := hr.sset h1
  let rest : Finset E → Finset E := fun T => S1.filter fun e => e ∈ T → decide (e ∈ S2) ≠ member
  have hself : ∀ S, (sets.set set1 S)[set1]? = some S := fun S => getElem?_set_self h1
  have hzero : rest ∅ = S1 := by simp [rest]
  have hall : rest S1 = S1.filter fun e => decide (e ∈ S2) ≠ member := by
    apply Finset.filter_congr
    intro e he
    simp [he]
  obtain ⟨m, h', hloop, hr', -, -, rfl⟩ := across_spec (I := fun i T m h' =>
      Represents h' (sets.set set1 (rest T)) ∧
        (∃ v', h'.vectors[s.vector]? = some v' ∧ ∀ j ≥ i, v'[j]? = v[j]?) ∧
        (∃ s', h'.ssets[set1]? = some s' ∧ s'.vector = s.vector) ∧ m = decide (rest T ≠ S1))
    (b := fun index element h => do
      if (← ssetMember element set2 h) = member then return (true, ← bury set1 index h)
      else return (false, h)) hv
    ⟨by rwa [hzero, set_getElem?_self h1], ⟨v, hv, fun _ _ => rfl⟩, ⟨s, hs, rfl⟩, by simp [hzero]⟩
    (fun i T m h' ⟨_, ⟨v', hv', hsame⟩, _⟩ => ⟨v', hv', hsame i le_rfl⟩)
    (fun i T m h' ⟨hr', ⟨v', hv', hsame⟩, hI⟩ =>
      ⟨hr', ⟨v', hv', fun j hj => hsame j (by omega)⟩, hI⟩) (by
      rintro i m h' e ⟨hr', ⟨v', hv', hsame⟩, ⟨s', hs', heq⟩, rfl⟩ hi
      have he1 : e ∈ S1 := (ht.cells.mem e).mpr ⟨i, hi⟩
      have heT := ht.cells.notMem_before hi
      obtain ⟨S, hS, hmem⟩ :=
        mem_of_set h1 h2 (e := e) (T := rest (before v i)) (by simp [rest, heT])
      simp only [hr'.member hS, hmem, bind_eq_bind, bind_some]
      by_cases hmember : decide (e ∈ S2) = member
      · obtain ⟨n, hh⟩ := hr'.holds set1 _ (hself _)
        rw [← heq] at hv'
        obtain ⟨h'', s'', hbury, hh', hc, hs'', heq', hv''⟩ :=
          bury_spec hh hs' hv' ((hsame i le_rfl).trans hi)
        have hrest : rest (insert e (before v i)) = (rest (before v i)).erase e := by
          ext e'
          simp only [rest, Finset.mem_filter, Finset.mem_erase, Finset.mem_insert]
          by_cases he' : e' = e
          · simp [he', hmember]
          · simp [he']
        have hne := changed_erase (T := rest (before v i)) (filter_subset _ _) (e :=
          e) (by simp [rest, heT, he1])
        refine ⟨true, h'', by simp [hmember, hbury], ?_⟩
        rw [hrest]
        refine ⟨by simpa only [set_set] using hr'.change hc hh', ⟨_, heq ▸ hv'', fun j hj => ?_⟩,
          ⟨s'', hs'', heq'.trans heq⟩, by simp [hne]⟩
        rw [getElem?_set_of_ne (by omega), hsame j (by omega)]
      · have hrest : rest (insert e (before v i)) = rest (before v i) := by
          apply Finset.filter_congr
          intro e' _
          by_cases he' : e' = e
          · simp [he', hmember]
          · simp [he']
        refine ⟨false, h', by simp [hmember], ?_⟩
        rw [hrest, Bool.or_false]
        exact ⟨hr', ⟨v', hv', fun j hj => hsame j (by omega)⟩, ⟨s', hs', heq⟩, rfl⟩)
  rw [ht.cells.before_length, hall] at hr' hloop
  refine ⟨h', ?_, hr'⟩
  simp only [buryMembers, hs, bind_eq_bind, bind_some]
  exact hloop

theorem members_spec (hr : Represents h sets) (h2 : sets[set2]? = some S2) :
    ∀ cells : List (Cell E),
    ∃ b, members set2 h cells = some b ∧ (b = true ↔ ∀ e, .element e ∈ cells → e ∈ S2)
  | [] => ⟨true, rfl, by simp⟩
  | .unused :: cells => by simpa [members] using members_spec hr h2 cells
  | .deleted :: cells => by simpa [members] using members_spec hr h2 cells
  | .element e :: cells => by
    obtain ⟨b, hb, hiff⟩ := members_spec hr h2 cells
    simp only [members, hr.member h2, bind_eq_bind, bind_some, decide_eq_true_eq]
    by_cases he : e ∈ S2
    · exact ⟨b, by rw [if_pos he, hb], by simp [hiff, he]⟩
    · exact ⟨false, if_neg he, by simp [he]⟩

theorem ssetEqual_spec (hr : Represents h sets) (h1 : sets[set1]? = some S1)
    (h2 : sets[set2]? = some S2) : ssetEqual set1 set2 h = some (decide (S1 = S2)) := by
  obtain ⟨s1, v, hs1, hv, ht⟩ := hr.sset h1
  obtain ⟨s2, w, hs2, -, ht2⟩ := hr.sset h2
  simp only [ssetEqual, hs1, hs2, hv, bind_eq_bind, bind_some, ht.count, ht2.count]
  by_cases hcard : S1.card = S2.card
  · obtain ⟨b, hb, hiff⟩ := members_spec hr h2 v
    have hsub : b = true ↔ S1 ⊆ S2 := by
      rw [hiff]
      simp only [subset_iff, ht.cells.mem, mem_iff_getElem?]
    rw [if_neg (not_not.mpr hcard), hb, Option.some.injEq, Bool.eq_iff_iff, hsub, decide_eq_true_eq]
    exact ⟨fun h => eq_of_subset_of_card_le h hcard.ge, fun h => h ▸ Finset.Subset.refl _⟩
  · have hne : S1 ≠ S2 := fun h => hcard (h ▸ rfl)
    simp [hcard, hne]

/-! ## Runs -/

theorem step_spec (hr : Represents h sets) (op : Op E) {answer : Answer} {sets' : List (Finset E)}
    (hop : op.spec sets = some (answer, sets')) : ∃ h', op.step h = some (answer, h') ∧
      Represents h' sets' := by
  cases op <;> simp only [Op.spec, assign, bind_eq_bind, bind_eq_some_iff, Option.pure_def,
    Option.some.injEq, Prod.mk.injEq] at hop
  case make =>
    obtain ⟨rfl, rfl⟩ := hop
    exact ⟨_, by simp [Op.step, hr.length], hr.make ⟨.replicate 0, rfl, rfl, .inl rfl⟩⟩
  case copy set =>
    obtain ⟨S, hS, rfl, rfl⟩ := hop
    obtain ⟨s, v, hs, hv, ht⟩ := hr.sset hS
    exact ⟨_, by simp [Op.step, copySset, hs, hv, hr.length],
      hr.make ⟨ht.cells, ht.count, ht.unused, ht.length⟩⟩
  case adjoin e set =>
    obtain ⟨S, hS, rfl, rfl⟩ := hop
    obtain ⟨n, hh⟩ := hr.holds set S hS
    obtain ⟨h', n', hadjoin, hh', hc, -⟩ := ssetAdjoin_spec hh e
    refine ⟨h', ?_, hr.change hc hh'⟩
    simp [Op.step, hadjoin]
  case delete e set =>
    obtain ⟨S, hS, rfl, rfl⟩ := hop
    obtain ⟨n, hh⟩ := hr.holds set S hS
    obtain ⟨s, v, hs, hv, ⟨he, i, hi, hfind⟩ | ⟨he, hfind⟩⟩ := find_spec hh e
    · obtain ⟨h', s', hbury, hh', hc, -⟩ := bury_spec hh hs hv hi
      refine ⟨h', ?_, hr.change hc hh'⟩
      simp [Op.step, ssetDelete, hfind, hbury, he]
    · refine ⟨h, by simp [Op.step, ssetDelete, hfind, he], ?_⟩
      simpa [erase_eq_of_notMem he, set_getElem?_self hS] using hr
  case union set1 set2 =>
    obtain ⟨S1, h1, S2, h2, rfl, rfl⟩ := hop
    obtain ⟨h', hstep, hr'⟩ := ssetUnion_spec hr h1 h2
    exact ⟨h', by simp [Op.step, hstep], hr'⟩
  case intersection set1 set2 =>
    obtain ⟨S1, h1, S2, h2, rfl, rfl⟩ := hop
    obtain ⟨h', hstep, hr'⟩ := buryMembers_spec hr h1 h2 false
    have hinter : S1.filter (fun e => decide (e ∈ S2) ≠ false) = S1 ∩ S2 := by ext; simp
    rw [hinter] at hstep hr'
    exact ⟨h', by simp [Op.step, ssetIntersection, hstep], hr'⟩
  case difference set1 set2 =>
    obtain ⟨S1, h1, S2, h2, rfl, rfl⟩ := hop
    obtain ⟨h', hstep, hr'⟩ := buryMembers_spec hr h1 h2 true
    have hdiff : S1.filter (fun e => decide (e ∈ S2) ≠ true) = S1 \ S2 := by ext; simp
    rw [hdiff] at hstep hr'
    exact ⟨h', by simp [Op.step, ssetDifference, hstep], hr'⟩
  case unionOfDifference set1 set2 set3 =>
    obtain ⟨S1, h1, S2, h2, S3, h3, rfl, rfl⟩ := hop
    obtain ⟨h', hstep, hr'⟩ := ssetUnionOfDifference_spec hr h1 h2 h3
    exact ⟨h', by simp [Op.step, hstep], hr'⟩
  case member e set =>
    obtain ⟨S, hS, rfl, rfl⟩ := hop
    exact ⟨h, by simp [Op.step, hr.member hS], hr⟩
  case count set =>
    obtain ⟨S, hS, rfl, rfl⟩ := hop
    obtain ⟨s, v, hs, -, ht⟩ := hr.sset hS
    exact ⟨h, by simp [Op.step, hs, ht.count], hr⟩
  case empty set =>
    obtain ⟨S, hS, rfl, rfl⟩ := hop
    obtain ⟨s, v, hs, -, ht⟩ := hr.sset hS
    exact ⟨h, by simp [Op.step, ssetEmpty, hs, ht.count], hr⟩
  case equal set1 set2 =>
    obtain ⟨S1, h1, S2, h2, rfl, rfl⟩ := hop
    exact ⟨h, by simp [Op.step, ssetEqual_spec hr h1 h2], hr⟩

theorem run_spec :
    ∀ (ops : List (Op E)) {h : Heap E} {sets sets' : List (Finset E)} {answers : List Answer},
    Represents h sets → run Op.spec ops sets = some (answers, sets') →
    ∃ h', run Op.step ops h = some (answers, h') ∧ Represents h' sets'
  | [], h, sets, sets', answers, hr, hrun => by
    obtain ⟨rfl, rfl⟩ := Prod.ext_iff.mp (Option.some.inj hrun)
    exact ⟨h, rfl, hr⟩
  | op :: ops, h, sets, sets', answers, hr, hrun => by
    obtain ⟨⟨answer, sets1⟩, hop, hrun⟩ := bind_eq_some_iff.mp hrun
    obtain ⟨⟨answers1, sets2⟩, hops, heq⟩ := bind_eq_some_iff.mp hrun
    obtain ⟨rfl, rfl⟩ := Prod.ext_iff.mp (Option.some.inj heq)
    obtain ⟨h1, hstep, hr1⟩ := step_spec hr op hop
    obtain ⟨h', hrun', hr'⟩ := run_spec ops hr1 hops
    exact ⟨h', by simp [run, hstep, hrun'], hr'⟩

/-- Every sequence of operations returns, with the answers of the finite sets; where it ends, the
vector of each set holds the elements of the finite set, their number is its count, and on every
probe sequence of a vector with cells is one that was never used. -/
theorem sset_run (ops : List (Op E)) {answers : List Answer} {sets : List (Finset E)}
    (hrun : run Op.spec ops [] = some (answers, sets)) :
    ∃ heap, run Op.step ops Heap.initial = some (answers, heap) ∧ heap.ssets.length = sets.length ∧
      ∀ (set : ℕ) S, sets[set]? = some S → ∃ s v, heap.ssets[set]? = some s ∧
        heap.vectors[s.vector]? = some v ∧ s.count = S.card ∧ (∀ e, e ∈ S ↔ .element e ∈ v) ∧
        (v ≠ [] → ∀ e : E, ∃ k < v.length, v[cellAt v.length e k]? = some .unused) := by
  have hinitial : Represents (Heap.initial : Heap E) [] := ⟨rfl, by simp, by simp [Heap.initial]⟩
  obtain ⟨heap, hheap, hr⟩ := run_spec ops hinitial hrun
  refine ⟨heap, hheap, hr.length, fun set S hS => ?_⟩
  obtain ⟨s, v, hs, hv, ht⟩ := hr.sset hS
  refine ⟨s, v, hs, hv, ht.count, fun e => (ht.cells.mem e).trans mem_iff_getElem?.symm,
    fun hnil e => ?_⟩
  obtain ⟨bits, hbits⟩ := ht.length.resolve_left hnil
  obtain ⟨i, hi⟩ := mem_iff_getElem?.mp (ht.unused_pos hnil)
  have hcoprime : (ssetHash2 e).Coprime v.length := by
    rw [hbits]
    exact coprime_ssetHash2 _ _
  obtain ⟨k, hk, rfl⟩ :=
    @exists_position v.length (ssetHash1 e) _ hcoprime _ (List.getElem?_eq_some_iff.mp hi).1
  exact ⟨k, hk, hi⟩

instance : SsetElement ℕ := ⟨id, false⟩

/-- A set grows while it is united with itself, and loses its elements to itself. -/
theorem sset_run_itself :
    ∃ heap, run Op.step [.make, .adjoin 3 0, .union 0 0, .difference 0 0] Heap.initial =
        some ([.number 0, .truth true, .truth false, .truth true], heap) ∧ heap.ssets.length = 1 ∧
      ∀ (set : ℕ) S, [(∅ : Finset ℕ)][set]? = some S → ∃ s v, heap.ssets[set]? = some s ∧
        heap.vectors[s.vector]? = some v ∧ s.count = S.card ∧ (∀ e, e ∈ S ↔ .element e ∈ v) ∧
        (v ≠ [] → ∀ e : ℕ, ∃ k < v.length, v[cellAt v.length e k]? = some .unused) := by
  have hspec : run Op.spec [.make, .adjoin 3 0, .union 0 0, .difference 0 0] [] =
      some ([.number 0, .truth true, .truth false, .truth true], [(∅ : Finset ℕ)]) := by decide
  exact sset_run _ hspec

end Insertion

end Sbcl.Ssets
