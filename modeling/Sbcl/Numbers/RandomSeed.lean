import Sbcl.Integer

/-!
# Seeding the random state (code/target-random.lisp)

* `initRandomState`, `octetsToWords`, `integerToWords`, `mixSeed`, `mixState`, `seedRandomState` :
  the code, where an index out of range returns nothing;
* `Kept`, `mixSeed_spec`, `mixState_spec` : what the mixing keeps;
* `Seed.Accepted`, `seedRandomState_iff` : the seeds that the code takes as it says.
-/

namespace Sbcl.Random

open List Option Nat
open Option (bind_none)

abbrev Octet := BitVec 8

abbrev Word32 := BitVec 32

def mt19937N : ℕ := 624

def mt19937A : Word32 := 0x9908B0DF

/-- The matrix, the index, and the words from 3 on. -/
abbrev RandomState := List Word32

def makeArray (length : ℕ) : List Word32 := List.replicate length 0

@[simp] theorem length_makeArray (length : ℕ) : (makeArray length).length = length :=
  length_replicate

/-- `(setf aref)` -/
def setAref (v : List Word32) (i : ℕ) (word : Word32) : Option (List Word32) :=
  if i < v.length then some (v.set i word) else none

/-- The loop of `init-random-state`, with the turns that are left. -/
def initLoop : ℕ → ℕ → ℕ → Word32 → RandomState → Option RandomState
  | 0, _, _, _, state => some state
  | turns + 1, i, p, s, state => do
    let state ← setAref state p s
    initLoop turns (i + 1) (p + 1)
      (BitVec.ofNat 32 (1812433253 * (s ^^^ s >>> 30).toNat + (i + 1))) state

def initRandomState (seed : Word32) : Option RandomState := do
  let state := makeArray 627
  let state ← setAref state 0 0
  let state ← setAref state 1 mt19937A
  let state ← setAref state 2 (BitVec.ofNat 32 mt19937N)
  initLoop mt19937N 0 3 seed state

/-- The end of the array is carried to its first word. -/
def wrapIndex (s : RandomState) (i : ℕ) : Option (RandomState × ℕ) :=
  if i ≥ mt19937N then do
    let last ← s[2 + mt19937N]?
    let s ← setAref s 3 last
    some (s, 1)
  else some (s, i)

/-- The word before, as the mixing takes it. -/
def shifted (word : Word32) : ℕ := (word ^^^ word >>> 30).toNat

/-- The first loop over the words: those of the seed are mixed in. -/
def mixSeed (state : List Word32) : ℕ → RandomState → ℕ → ℕ → Option (RandomState × ℕ)
  | 0, s, i, _ => some (s, i)
  | turns + 1, s, i, j => do
    let word ← s[i + 3]?
    let previous ← s[i + 2]?
    let seed ← state[j]?
    let s ← setAref s (i + 3)
      (BitVec.ofNat 32 ((word.toNat ^^^ 1664525 * shifted previous) + seed.toNat + j))
    let (s, i) ← wrapIndex s (i + 1)
    mixSeed state turns s i (if j + 1 ≥ state.length then 0 else j + 1)

/-- The second loop. -/
def mixState : ℕ → RandomState → ℕ → Option RandomState
  | 0, s, _ => some s
  | turns + 1, s, i => do
    let word ← s[i + 3]?
    let previous ← s[i + 2]?
    let s ← setAref s (i + 3)
      (BitVec.ofInt 32 ((word.toNat ^^^ 1566083941 * shifted previous : ℕ) - i))
    let (s, i) ← wrapIndex s (i + 1)
    mixState turns s i

/-- The branch for words. -/
def seedWords (state : List Word32) : Option RandomState := do
  let s ← initRandomState 19650218
  let (s, i) ← mixSeed state (max mt19937N state.length) s 1 0
  let s ← mixState (mt19937N - 1) s i
  setAref s 3 0x80000000

/-- One turn of the loop over the octets of whole words. -/
def storeWord (state : List Octet) (y : List Word32) (i : ℕ) : Option (List Word32) := do
  let a ← state[4 * i]?
  let b ← state[4 * i + 1]?
  let c ← state[4 * i + 2]?
  let d ← state[4 * i + 3]?
  setAref y i (BitVec.ofNat 32 (a.toNat + b.toNat <<< 8 + c.toNat <<< 16 + d.toNat <<< 24))

def wholeWords (state : List Octet) (n : ℕ) (y : List Word32) : Option (List Word32) :=
  (List.range n).foldlM (storeWord state) y

/-- The words of the branch for octets. -/
def octetsToWords (state : List Octet) : Option (List Word32) := do
  let l := state.length
  let m := (l + 3) / 4
  let r := if l ≥ 2496 then 0 else l % 4
  let y ← wholeWords state (m - if r = 0 then 0 else 1) (makeArray m)
  if r = 0 then some y
  else do
    let p := m - 1
    let q := 4 * p
    let a ← state[q]?
    let b ← (if 1 < r then state[q + 1]? else some 0)
    let c ← (if r = 3 then state[q + 2]? else some 0)
    setAref y p (BitVec.ofNat 32 (a.toNat + b.toNat <<< 8 + c.toNat <<< 16))

/-- The words of the branch for large integers. -/
def integerToWords (state : ℕ) : List Word32 :=
  (List.range ((integerLength state + 31) / 32)).map fun i => BitVec.ofNat 32 (state >>> (32 * i))

inductive Seed where
  | octets (state : List Octet)
  | integer (state : ℕ)
  | words (state : List Word32)
deriving DecidableEq

/-- `seed-random-state` of the seeds that are not a state. -/
def seedRandomState : Seed → Option RandomState
  | .octets state => (octetsToWords state).bind seedWords
  | .integer state =>
    if state < 2 ^ 32 then initRandomState (BitVec.ofNat 32 state) else seedWords
      (integerToWords state)
  | .words state => seedWords state

/-- 624 words, the index of the end, and a first word that is not zero. -/
structure WellSeeded (s : RandomState) : Prop where
  length_eq : s.length = 3 + mt19937N
  index_eq : s[2]? = some (BitVec.ofNat 32 mt19937N)
  first_ne : ∃ word, s[3]? = some word ∧ word ≠ 0

/-- The word of four octets, of which those behind the end are zero. -/
def littleEndianWord (octets : List Octet) (i : ℕ) : Word32 :=
  BitVec.ofNat 32 (∑ k ∈ Finset.range 4, (octets.getD (4 * i + k) 0).toNat * 256 ^ k)

def littleEndianWords (octets : List Octet) : List Word32 :=
  (List.range ((octets.length + 3) / 4)).map (littleEndianWord octets)

/-- There is a good state, for octets the one of their words. -/
def Seed.Accepted (seed : Seed) : Prop :=
  (∃ s, seedRandomState seed = some s ∧ WellSeeded s) ∧
    ∀ octets, seed = .octets octets →
    seedRandomState seed = seedRandomState (.words (littleEndianWords octets))

theorem setAref_of_lt {v : List Word32} {i : ℕ} (h : i < v.length) (word : Word32) :
    setAref v i word = some (v.set i word) :=
  if_pos h

/-- The length, and the index of the state. -/
def Kept (s : RandomState) : Prop :=
  s.length = 3 + mt19937N ∧ s[2]? = some (BitVec.ofNat 32 mt19937N)

theorem setAref_kept {s : RandomState} (hs : Kept s) {p : ℕ} (hp : 3 ≤ p) (hlt : p < 3 + mt19937N)
    (word : Word32) : setAref s p word = some (s.set p word) ∧ Kept (s.set p word) := by
  refine ⟨setAref_of_lt (hs.1.symm ▸ hlt) word, (length_set).trans hs.1, ?_⟩
  rw [getElem?_set_ne (by omega), hs.2]

theorem initLoop_spec (turns : ℕ) : ∀ (i p : ℕ) (s : Word32) (state : RandomState),
    Kept state → 3 ≤ p → p + turns ≤ 3 + mt19937N →
    ∃ state', initLoop turns i p s state = some state' ∧ Kept state' ∧
      (∀ q < p, state'[q]? = state[q]?) ∧ (0 < turns → state'[p]? = some s) := by
  induction turns with
  | zero => exact fun i p s state hs _ _ => ⟨state, rfl, hs, fun q _ => rfl,
    fun h => absurd h (lt_irrefl 0)⟩
  | succ turns ih =>
    intro i p s state hs hp hle
    have hlt : p < 3 + mt19937N := by omega
    obtain ⟨hset, hkept⟩ := setAref_kept hs hp hlt s
    obtain ⟨state', hrun, hkept', hfirst, -⟩ := ih (i + 1) (p + 1) _ _ hkept (by omega) (by omega)
    refine ⟨state', ?_, hkept', fun q hq => ?_, fun _ => ?_⟩
    · rw [initLoop, hset]
      exact hrun
    · rw [hfirst q (by omega), getElem?_set_ne (by omega)]
    · rw [hfirst p (lt_succ_self p), List.getElem?_set_self (hs.1.symm ▸ hlt)]

theorem initRandomState_spec (seed : Word32) :
    ∃ s, initRandomState seed = some s ∧ Kept s ∧ s[3]? = some seed := by
  obtain ⟨start, hdef⟩ : ∃ start : RandomState,
      start = (((makeArray 627).set 0 0).set 1 mt19937A).set 2 (BitVec.ofNat 32 mt19937N) :=
        ⟨_, rfl⟩
  have hstart : initRandomState seed = initLoop mt19937N 0 3 seed start := by
    rw [initRandomState, setAref_of_lt (by rw [length_makeArray]; decide), bind_eq_bind, bind_some,
      setAref_of_lt (by rw [length_set, length_makeArray]; decide), bind_some,
      setAref_of_lt (by rw [length_set, length_set, length_makeArray]; decide), bind_some, hdef]
  have hkept : Kept start := by simp [Kept, hdef, mt19937N]
  obtain ⟨s, hrun, hs, -, hfirst⟩ :=
    initLoop_spec mt19937N 0 3 seed start hkept (le_refl 3) (le_refl _)
  exact ⟨s, hstart.trans hrun, hs, hfirst (by decide)⟩

/-! ## The mixing -/

theorem wrapIndex_spec {s : RandomState} (hs : Kept s) {i : ℕ} (hpos : 0 < i) :
    ∃ s' i', wrapIndex s i = some (s', i') ∧ Kept s' ∧ 0 < i' ∧ i' < mt19937N := by
  rw [wrapIndex]
  split
  · have hlast : 2 + mt19937N < s.length := hs.1.symm ▸ by decide
    obtain ⟨hset, hkept⟩ := setAref_kept hs (le_refl 3) (by decide) s[2 + mt19937N]
    refine ⟨_, 1, ?_, hkept, Nat.one_pos, by decide⟩
    simp only [getElem?_eq_getElem hlast, bind_eq_bind, bind_some, hset]
  · exact ⟨s, i, rfl, hs, hpos, by omega⟩

theorem mixSeed_spec (state : List Word32) (turns : ℕ) : ∀ (s : RandomState) (i j : ℕ),
    Kept s → 0 < i → i < mt19937N → j < state.length →
    ∃ s' i', mixSeed state turns s i j = some (s', i') ∧ Kept s' ∧ 0 < i' ∧ i' < mt19937N := by
  induction turns with
  | zero => exact fun s i j hs hpos hi _ => ⟨s, i, rfl, hs, hpos, hi⟩
  | succ turns ih =>
    intro s i j hs hpos hi hj
    have hword : i + 3 < s.length := by rw [hs.1]; omega
    obtain ⟨hset, hkept⟩ := setAref_kept hs (show 3 ≤ i + 3 by omega) (by omega) (BitVec.ofNat 32
      ((s[i + 3].toNat ^^^ 1664525 * shifted s[i + 2]) + state[j].toNat + j))
    obtain ⟨s₁, i₁, hwrap, hkept₁, hpos₁, hi₁⟩ := wrapIndex_spec hkept (succ_pos i)
    have hnext : (if j + 1 ≥ state.length then 0 else j + 1) < state.length := by split <;> omega
    obtain ⟨s', i', hrun, hspec⟩ := ih s₁ i₁ _ hkept₁ hpos₁ hi₁ hnext
    refine ⟨s', i', ?_, hspec⟩
    simp only [mixSeed, getElem?_eq_getElem hword, getElem?_eq_getElem (lt_of_succ_lt hword),
      getElem?_eq_getElem hj, bind_eq_bind, bind_some, hset, hwrap, hrun]

theorem mixState_spec (turns : ℕ) : ∀ (s : RandomState) (i : ℕ), Kept s → 0 < i → i < mt19937N →
    ∃ s', mixState turns s i = some s' ∧ Kept s' := by
  induction turns with
  | zero => exact fun s i hs _ _ => ⟨s, rfl, hs⟩
  | succ turns ih =>
    intro s i hs hpos hi
    have hword : i + 3 < s.length := by rw [hs.1]; omega
    obtain ⟨hset, hkept⟩ := setAref_kept hs (show 3 ≤ i + 3 by omega) (by omega) (BitVec.ofInt 32
      ((s[i + 3].toNat ^^^ 1566083941 * shifted s[i + 2] : ℕ) - i))
    obtain ⟨s₁, i₁, hwrap, hkept₁, hpos₁, hi₁⟩ := wrapIndex_spec hkept (succ_pos i)
    obtain ⟨s', hrun, hspec⟩ := ih s₁ i₁ hkept₁ hpos₁ hi₁
    refine ⟨s', ?_, hspec⟩
    simp only [mixState, getElem?_eq_getElem hword, getElem?_eq_getElem (lt_of_succ_lt hword),
      bind_eq_bind, bind_some, hset, hwrap, hrun]

theorem seedWords_nil : seedWords [] = none := by
  obtain ⟨s, hs, -⟩ := initRandomState_spec 19650218
  have hmix : mixSeed [] (max mt19937N ([] : List Word32).length) s 1 0 = none := by
    rw [mt19937N, length_nil, Nat.max_zero, mixSeed]
    cases s[1 + 3]? <;> cases s[1 + 2]? <;> simp
  simp only [seedWords, hs, bind_eq_bind, bind_some, hmix, bind_none]

theorem seedWords_spec {state : List Word32} (h : state ≠ []) : ∃ s, seedWords state = some s ∧
    WellSeeded s := by
  obtain ⟨s, hs, hkept, -⟩ := initRandomState_spec 19650218
  obtain ⟨s₁, i, hseed, hkept₁, hpos, hi⟩ :=
    mixSeed_spec state (max mt19937N state.length) s 1 0 hkept
    Nat.one_pos (by decide) (length_pos_of_ne_nil h)
  obtain ⟨s₂, hstate, hkept₂⟩ := mixState_spec (mt19937N - 1) s₁ i hkept₁ hpos hi
  obtain ⟨hset, hkept₃⟩ := setAref_kept hkept₂ (le_refl 3) (by decide) 0x80000000
  refine ⟨_, ?_, hkept₃.1, hkept₃.2, _,
    List.getElem?_set_self (hkept₂.1.symm ▸ by decide), by decide⟩
  simp only [seedWords, hs, bind_eq_bind, bind_some, hseed, hstate, hset]

/-! ## Octets -/

theorem getElem?_eq_getD (octets : List Octet) {i : ℕ} (h : i < octets.length) :
    octets[i]? = some (octets.getD i 0) := by
  rw [getElem?_eq_getElem h, getD_eq_getElem _ _ h]

theorem littleEndianWord_eq (octets : List Octet) (i : ℕ) : littleEndianWord octets i =
    BitVec.ofNat 32 ((octets.getD (4 * i) 0).toNat + (octets.getD (4 * i + 1) 0).toNat <<< 8 +
      (octets.getD (4 * i + 2) 0).toNat <<< 16 + (octets.getD (4 * i + 3) 0).toNat <<< 24) := by
  simp only [littleEndianWord, Finset.sum_range_succ, Finset.sum_range_zero, shiftLeft_eq]
  norm_num

theorem wholeWords_succ (state : List Octet) (n : ℕ) (y : List Word32) :
    wholeWords state (n + 1) y = (wholeWords state n y).bind fun y => storeWord state y n := by
  rw [wholeWords, range_succ, foldlM_append]
  simp only [foldlM_cons, foldlM_nil, bind_pure]
  rfl

theorem wholeWords_spec (state : List Octet) (y : List Word32) (n : ℕ) (hn : 4 * n ≤ state.length)
    (hy : n ≤ y.length) :
    ∃ y', wholeWords state n y = some y' ∧ y'.length = y.length ∧ ∀ i < n,
      y'[i]? = some (littleEndianWord state i) := by
  induction n with
  | zero => exact ⟨y, rfl, rfl, fun i hi => absurd hi (Nat.not_lt_zero i)⟩
  | succ n ih =>
    obtain ⟨y', hrun, hlength, hwords⟩ := ih (by omega) (by omega)
    refine ⟨y'.set n (littleEndianWord state n), ?_, (length_set).trans hlength, fun i hi => ?_⟩
    · rw [wholeWords_succ, hrun, bind_some]
      simp only [storeWord, getElem?_eq_getD state (show 4 * n < state.length by omega),
        getElem?_eq_getD state (show 4 * n + 1 < state.length by omega),
        getElem?_eq_getD state (show 4 * n + 2 < state.length by omega),
        getElem?_eq_getD state (show 4 * n + 3 < state.length by omega), bind_eq_bind, bind_some]
      rw [← littleEndianWord_eq, setAref_of_lt (by omega)]
    · by_cases hin : n = i
      · rw [← hin, List.getElem?_set_self (by omega)]
      · rw [getElem?_set_ne hin, hwords i (by omega)]

/-- The words are those of the octets, unless the last one is taken for a whole one. -/
theorem octetsToWords_eq {octets : List Octet} (h : 2496 ≤ octets.length → 4 ∣ octets.length) :
    octetsToWords octets = some (littleEndianWords octets) := by
  have hr : (if octets.length ≥ 2496 then 0 else octets.length % 4) = octets.length % 4 := by
    split <;> omega
  obtain ⟨m, hm⟩ : ∃ m, m = (octets.length + 3) / 4 := ⟨_, rfl⟩
  have hwhole : (littleEndianWords octets).length = m := by
    rw [littleEndianWords, length_map, length_range, hm]
  have hget : ∀ i < m, (littleEndianWords octets)[i]? = some (littleEndianWord octets i) := by
    intro i hi
    rw [littleEndianWords, getElem?_map, getElem?_range (hm ▸ hi), map_some]
  obtain ⟨y, hrun, hlength, hwords⟩ := wholeWords_spec octets (makeArray m)
    (m - if octets.length % 4 = 0 then 0 else 1) (by split <;> omega)
    (by rw [length_makeArray]; omega)
  rw [length_makeArray] at hlength
  simp only [octetsToWords, hr, ← hm, hrun, bind_eq_bind, bind_some]
  split
  case isTrue hzero =>
    congr 1
    apply ext_getElem?
    intro i
    rw [if_pos hzero, Nat.sub_zero] at hwords
    by_cases hi : i < m
    · rw [hwords i hi, hget i hi]
    · rw [getElem?_eq_none (by omega), getElem?_eq_none (by omega)]
  case isFalse hzero =>
    rw [if_neg hzero] at hwords
    have hb : (if 1 < octets.length % 4 then octets[4 * (m - 1) + 1]? else some 0) =
        some (octets.getD (4 * (m - 1) + 1) 0) := by
      split
      · exact getElem?_eq_getD octets (by omega)
      · rw [getD_eq_default _ _ (by omega)]
    have hc : (if octets.length % 4 = 3 then octets[4 * (m - 1) + 2]? else some 0) =
        some (octets.getD (4 * (m - 1) + 2) 0) := by
      split
      · exact getElem?_eq_getD octets (by omega)
      · rw [getD_eq_default _ _ (by omega)]
    have hword := littleEndianWord_eq octets (m - 1)
    rw [getD_eq_default octets (n := 4 * (m - 1) + 3) 0 (by omega)] at hword
    simp only [getElem?_eq_getD octets (show 4 * (m - 1) < octets.length by omega),
      hb, hc, bind_some]
    rw [setAref_of_lt (by omega)]
    congr 1
    apply ext_getElem?
    intro i
    by_cases hlast : m - 1 = i
    · rw [← hlast, List.getElem?_set_self (by omega), hget _ (by omega), hword]
      simp
    · rw [getElem?_set_ne hlast]
      by_cases hi : i < m
      · rw [hwords i (by omega), hget i hi]
      · rw [getElem?_eq_none (by omega), getElem?_eq_none (by omega)]

theorem octetsToWords_none {octets : List Octet} (hlong : 2496 ≤ octets.length)
    (h : ¬4 ∣ octets.length) : octetsToWords octets = none := by
  obtain ⟨n, hn⟩ : ∃ n, (octets.length + 3) / 4 = n + 1 := ⟨(octets.length + 3) / 4 - 1, by omega⟩
  have hend : octets[4 * n + 3]? = none := getElem?_eq_none (by omega)
  have hrun : ∀ y, wholeWords octets (n + 1) y = none := by
    intro y
    rw [wholeWords_succ]
    simp [storeWord, hend]
  simp only [octetsToWords, if_pos hlong, hn, if_pos, Nat.sub_zero, hrun, bind_eq_bind, bind_none]

theorem seed_empty_octets : (octetsToWords []).bind seedWords = none := by
  have hwords : octetsToWords [] = some [] := octetsToWords_eq fun h => absurd h (by decide)
  rw [hwords, bind_some, seedWords_nil]

/-- The seeds that are taken: not zero, which is stored as the first word, not an empty vector, and
not a vector of at least 2496 octets whose last word is not whole. -/
theorem seedRandomState_iff (seed : Seed) : seed.Accepted ↔
    seed ≠ .integer 0 ∧ seed ≠ .words [] ∧
      ∀ octets, seed = .octets octets → octets ≠ [] ∧
        (2496 ≤ octets.length → 4 ∣ octets.length) := by
  match seed with
  | .words state =>
    simp only [Seed.Accepted, ne_eq, reduceCtorEq, not_false_iff, true_and, IsEmpty.forall_iff,
      implies_true, and_true, Seed.words.injEq]
    constructor
    · rintro ⟨s, hs, -⟩ rfl
      exact some_ne_none s (hs.symm.trans seedWords_nil)
    · exact seedWords_spec
  | .integer state =>
    simp only [Seed.Accepted, ne_eq, reduceCtorEq, not_false_iff, IsEmpty.forall_iff,
      implies_true, and_true, Seed.integer.injEq]
    rw [seedRandomState]
    split
    case isTrue hsmall =>
      obtain ⟨s, hs, hkept, hfirst⟩ := initRandomState_spec (BitVec.ofNat 32 state)
      have hzero : BitVec.ofNat 32 state = 0 ↔ state = 0 := by
        rw [← BitVec.toNat_inj, BitVec.toNat_ofNat, mod_eq_of_lt hsmall]
        rfl
      constructor
      · rintro ⟨s', hs', -, -, word, hword, hne⟩ hstate
        obtain rfl : s = s' := Option.some.inj (hs.symm.trans hs')
        exact hne ((Option.some.inj (hword.symm.trans hfirst)).trans (hzero.2 hstate))
      · exact fun hne => ⟨s, hs, hkept.1, hkept.2, _, hfirst, mt hzero.1 hne⟩
    case isFalse hlarge =>
      have hsize : 32 < integerLength state :=
        (lt_integerLength_iff (Int.natCast_nonneg _) 32).2 (by omega)
      have hne : integerToWords state ≠ [] := by
        apply ne_nil_of_length_pos
        rw [integerToWords, length_map, length_range]
        omega
      exact ⟨fun _ => by rintro rfl; exact hlarge (by decide), fun _ => seedWords_spec hne⟩
  | .octets octets =>
    simp only [Seed.Accepted, ne_eq, reduceCtorEq, not_false_iff, true_and,
      Seed.octets.injEq, forall_eq', seedRandomState]
    constructor
    · rintro ⟨⟨s, hs, -⟩, -⟩
      constructor
      · rintro rfl
        exact some_ne_none s (hs.symm.trans seed_empty_octets)
      · intro hlong
        by_contra hdvd
        rw [octetsToWords_none hlong hdvd] at hs
        exact some_ne_none s hs.symm
    · rintro ⟨hne, hlong⟩
      rw [octetsToWords_eq hlong, bind_some]
      refine ⟨seedWords_spec ?_, rfl⟩
      apply ne_nil_of_length_pos
      have := length_pos_of_ne_nil hne
      rw [littleEndianWords, length_map, length_range]
      omega

/-- The first octet of an empty vector is read. -/
theorem empty_octets_not_accepted : ¬Seed.Accepted (.octets []) := by
  rintro ⟨⟨s, hs, -⟩, -⟩
  exact some_ne_none s (hs.symm.trans seed_empty_octets)

end Sbcl.Random
