import Sbcl.Sequences.BitPos

/-!
# The searches of a bit vector are exact

* `Places`, `IsFirst`, `IsLast` : the places in a range with a property, and an end of them, if
  there is one;
* `Chunk` : a masked word has the places of a part of the range;
* `Chunk.isLeast`, `Chunk.isGreatest` : its lowest and its highest one;
* `Words` : the words of a vector that can be read in a range, by the property of their places;
* `bitPosFwd_spec`, `bitPosRev_spec` : the chunks of a range, one after the other.
-/

namespace Sbcl.BitPos

open Option Int

variable {P : ℕ → Prop} {lo mid hi w : ℕ} {z : ℤ}

/-- The places from `lo` up to `hi` with the property. -/
def Places (P : ℕ → Prop) (lo hi : ℕ) : Set ℕ := {i | lo ≤ i ∧ i < hi ∧ P i}

/-- The first element of a set, if there is one. -/
def IsFirst (s : Set ℕ) : Option ℕ → Prop
  | none => s = ∅
  | some i => IsLeast s i

def IsLast (s : Set ℕ) : Option ℕ → Prop
  | none => s = ∅
  | some i => IsGreatest s i

theorem places_eq_empty_iff : Places P lo hi = ∅ ↔ ∀ i, lo ≤ i → i < hi → ¬ P i := by
  rw [Set.eq_empty_iff_forall_notMem]
  exact forall_congr' fun i => ⟨fun h hlo hhi hP => h ⟨hlo, hhi, hP⟩,
    fun h hi => h hi.1 hi.2.1 hi.2.2⟩

theorem places_left (h : Places P lo mid = ∅) (hmid : lo ≤ mid) :
    Places P mid hi = Places P lo hi := by
  rw [places_eq_empty_iff] at h
  ext i
  refine ⟨fun ⟨hi, hhi, hP⟩ => ⟨hmid.trans hi, hhi, hP⟩, fun ⟨hi, hhi, hP⟩ => ⟨?_, hhi, hP⟩⟩
  by_contra hlt
  exact h i hi (by omega) hP

theorem places_right (h : Places P mid hi = ∅) (hmid : mid ≤ hi) :
    Places P lo mid = Places P lo hi := by
  rw [places_eq_empty_iff] at h
  ext i
  refine ⟨fun ⟨hi, hhi, hP⟩ => ⟨hi, by omega, hP⟩, fun ⟨hi, hhi, hP⟩ => ⟨hi, ?_, hP⟩⟩
  by_contra hlt
  exact h i (by omega) hhi hP

theorem isLeast_left {i : ℕ} (h : IsLeast (Places P lo mid) i) (hmid : mid ≤ hi) :
    IsLeast (Places P lo hi) i := by
  obtain ⟨⟨hlo, hi', hP⟩, hleast⟩ := h
  refine ⟨⟨hlo, by omega, hP⟩, fun j ⟨hj, hjhi, hPj⟩ => ?_⟩
  by_contra hlt
  exact hlt (hleast ⟨hj, by omega, hPj⟩)

theorem isGreatest_right {i : ℕ} (h : IsGreatest (Places P mid hi) i) (hmid : lo ≤ mid) :
    IsGreatest (Places P lo hi) i := by
  obtain ⟨⟨hlo, hi', hP⟩, hgreatest⟩ := h
  refine ⟨⟨by omega, hi', hP⟩, fun j ⟨hj, hjhi, hPj⟩ => ?_⟩
  by_contra hlt
  exact hlt (hgreatest ⟨by omega, hjhi, hPj⟩)

/-! ## Masked words -/

theorem calcIndex_eq {bit : ℕ} (h : bit < 64) (word : ℕ) :
    calcIndex word bit = 64 * word + bit := by
  rw [calcIndex, show bitPositionBaseShift = 6 by decide, Nat.or_comm,
    ← Nat.shiftLeft_add_eq_or_of_lt (by simpa using h), Nat.shiftLeft_eq]
  omega

/-- The ones of `z` are the places of a part of a word. -/
structure Chunk (P : ℕ → Prop) (lo hi w : ℕ) (z : ℤ) : Prop where
  lower : 64 * w ≤ lo
  upper : hi ≤ 64 * (w + 1)
  nonneg : 0 ≤ z
  lt : z < 2 ^ 64
  bits : ∀ j < 64, z.testBit j = true ↔ lo ≤ 64 * w + j ∧ 64 * w + j < hi ∧ P (64 * w + j)

theorem Chunk.places (h : Chunk P lo hi w z) {i : ℕ} : i ∈ Places P lo hi ↔ ∃ j < 64,
    i = 64 * w + j ∧ z.testBit j = true := by
  have hlower := h.lower
  have hupper := h.upper
  constructor
  · rintro ⟨hlo, hhi, hP⟩
    obtain ⟨j, rfl⟩ := Nat.exists_eq_add_of_le (hlower.trans hlo)
    exact ⟨j, by omega, rfl, (h.bits j (by omega)).2 ⟨hlo, hhi, hP⟩⟩
  · rintro ⟨j, hj, rfl, hbit⟩
    exact (h.bits j hj).1 hbit

theorem Chunk.eq_empty (h : Chunk P lo hi w 0) : Places P lo hi = ∅ := by
  rw [Set.eq_empty_iff_forall_notMem]
  intro i hi
  obtain ⟨j, -, -, hbit⟩ := h.places.1 hi
  rw [IntBits.testBit_zero] at hbit
  cases hbit

theorem testBit_two_pow_mul_odd (k j : ℕ) (r : ℤ) (h : j ≤ k) :
    (2 ^ k * (2 * r + 1)).testBit j = decide (j = k) := by
  rw [mul_comm, IntBits.testBit_mul]
  rcases Nat.lt_or_eq_of_le h with hlt | rfl
  · rw [decide_eq_false (by omega), decide_eq_false (by omega), Bool.false_and]
  · rw [Nat.sub_self, decide_eq_true le_rfl, decide_eq_true rfl, Bool.true_and,
      show 2 * r + 1 = Int.bit true r by simp [bit_val]]
    exact testBit_bit_zero true r

theorem startBit_spec (h : 0 < z) (hlt : z < 2 ^ 64) :
    startBit z < 64 ∧ z.testBit (startBit z) = true ∧ ∀ j < startBit z, z.testBit j = false := by
  obtain ⟨k, r, hr, rfl⟩ := exists_two_pow_mul_odd h
  have hk : k < 64 := by
    by_contra hge
    have hpow : (2 : ℤ) ^ 64 ≤ 2 ^ k := pow_le_pow_right₀ (by decide) (by omega)
    nlinarith
  have hstart : startBit (2 ^ k * (2 * r + 1)) = k := by
    have hpow : (2 : ℤ) ^ k ≤ 2 ^ 64 := pow_le_pow_right₀ (by decide) hk.le
    have hpos : (0 : ℤ) < 2 ^ k := by positivity
    have hzero : ash (2 ^ k - 1) (-(0 : ℕ)) = 2 ^ k - 1 := by
      rw [ash_neg, pow_zero, ediv_one]
    unfold startBit ldb
    rw [logand_neg_self, hzero, emod_eq_of_lt (by omega) (by unfold nWordBits; omega),
      integerLength_pow_pred]
  rw [hstart]
  refine ⟨hk, ?_, fun j hj => ?_⟩
  · rw [testBit_two_pow_mul_odd k k r le_rfl, decide_eq_true rfl]
  · rw [testBit_two_pow_mul_odd k j r hj.le, decide_eq_false (by omega)]

theorem endBit_spec (h : 0 < z) (hlt : z < 2 ^ 64) :
    endBit z < 64 ∧ z.testBit (endBit z) = true ∧ ∀ j, endBit z < j → z.testBit j = false := by
  have hlength : integerLength z ≤ 64 := (integerLength_le_iff h.le 64).2 hlt
  have hpos : 0 < integerLength z := (lt_integerLength_iff h.le 0).2 (by rw [pow_zero]; omega)
  unfold endBit
  refine ⟨by omega, ?_, fun j hj => ?_⟩
  · rw [testBit_of_integerLength_eq (k := integerLength z - 1) (by omega),
      decide_eq_false h.not_gt, Bool.not_false]
  · rw [testBit_of_integerLength_le (by omega), decide_eq_false h.not_gt]

theorem Chunk.isLeast (h : Chunk P lo hi w z) (hz : z ≠ 0) :
    IsLeast (Places P lo hi) (calcIndex w (startBit z)) := by
  have hpos : 0 < z := lt_of_le_of_ne h.nonneg (Ne.symm hz)
  obtain ⟨hlt, hbit, hbelow⟩ := startBit_spec hpos h.lt
  rw [calcIndex_eq hlt]
  refine ⟨h.places.2 ⟨_, hlt, rfl, hbit⟩, fun i hi => ?_⟩
  obtain ⟨j, -, rfl, hj⟩ := h.places.1 hi
  by_contra hge
  rw [hbelow j (by omega)] at hj
  cases hj

theorem Chunk.isGreatest (h : Chunk P lo hi w z) (hz : z ≠ 0) :
    IsGreatest (Places P lo hi) (calcIndex w (endBit z)) := by
  have hpos : 0 < z := lt_of_le_of_ne h.nonneg (Ne.symm hz)
  obtain ⟨hlt, hbit, habove⟩ := endBit_spec hpos h.lt
  rw [calcIndex_eq hlt]
  refine ⟨h.places.2 ⟨_, hlt, rfl, hbit⟩, fun i hi => ?_⟩
  obtain ⟨j, -, rfl, hj⟩ := h.places.1 hi
  by_contra hge
  rw [habove j (by omega)] at hj
  cases hj

theorem land_baseMask (index : ℕ) : index &&& bitPositionBaseMask = index % 64 :=
  Nat.and_two_pow_sub_one_eq_mod index 6

theorem shiftRight_base (index : ℕ) : index >>> bitPositionBaseShift = index / 64 :=
  Nat.shiftRight_eq_div_pow index 6

theorem testBit_startMask (index j : ℕ) :
    (computeStartMask index).testBit j = decide (index % 64 ≤ j) := by
  unfold computeStartMask
  rw [land_baseMask, ash_ofNat, neg_one_mul, IntBits.testBit_neg_pow]

theorem computeEndMask_eq (index : ℕ) : computeEndMask index = 2 ^ (index % 64) - 1 := by
  unfold computeEndMask
  rw [land_baseMask]
  dsimp only
  rw [ash_ofNat, neg_one_mul, lognot, IntBits.lnot_eq, neg_neg]

theorem testBit_endMask (index j : ℕ) :
    (computeEndMask index).testBit j = decide (j < index % 64) := by
  rw [computeEndMask_eq, IntBits.testBit_pow_sub_one]

theorem computeEndMask_eq_zero_iff (index : ℕ) : computeEndMask index = 0 ↔ index % 64 = 0 := by
  rw [computeEndMask_eq, sub_eq_zero]
  constructor
  · intro h
    by_contra hne
    have : (2 : ℤ) ^ 1 ≤ 2 ^ (index % 64) := pow_le_pow_right₀ (by decide) (by omega)
    omega
  · intro h
    rw [h, pow_zero]

theorem Chunk.of_mask {m x : ℤ} (hx : 0 ≤ x) (hlt : x < 2 ^ 64)
    (hbits : ∀ j < 64, x.testBit j = true ↔ P (64 * w + j))
    (hlower : 64 * w ≤ lo) (hupper : hi ≤ 64 * (w + 1))
    (hmask : ∀ j < 64, m.testBit j = true ↔ lo ≤ 64 * w + j ∧ 64 * w + j < hi) :
    Chunk P lo hi w (logand m x) where
  lower := hlower
  upper := hupper
  nonneg := by
    by_contra hneg
    rw [logand, not_le, IntBits.land_neg_iff] at hneg
    omega
  lt := (IntBits.land_le_right (.inl hx)).trans_lt hlt
  bits j hj := by
    rw [logand, testBit_land, Bool.and_eq_true, hmask j hj, hbits j hj, and_assoc]

/-! ## The words of a range -/

/-- The words with a place of the range can be read, and have the places with the property. -/
structure Words (frob : ℤ → ℤ) (vector : RawBits) (P : ℕ → Prop) (start stop : ℕ) : Prop where
  read : ∀ w i, start ≤ i → i < stop → i / 64 = w →
    ∃ x, getWord frob vector w = some x ∧ 0 ≤ x ∧ x < 2 ^ 64 ∧ ∀ j < 64,
    x.testBit j = true ↔ P (64 * w + j)

section Searches

variable {frob : ℤ → ℤ} {vector : RawBits} {start stop : ℕ}

theorem Words.atStart (h : Words frob vector P start stop) (hlt : start < stop)
    (hend : 64 * (start / 64 + 1) = hi) :
    ∃ x, getWord frob vector (start / 64) = some x ∧ Chunk P start hi (start / 64)
      (logand (computeStartMask start) x) := by
  obtain ⟨x, hx, hnonneg, hlt, hbits⟩ := h.read (start / 64) start le_rfl hlt rfl
  refine ⟨x, hx, Chunk.of_mask hnonneg hlt hbits (by omega) (by omega) fun j hj => ?_⟩
  rw [testBit_startMask, decide_eq_true_iff]
  omega

theorem Words.atStop (h : Words frob vector P start stop) (hlo : start ≤ 64 * (stop / 64))
    (hmod : stop % 64 ≠ 0) : ∃ x, getWord frob vector (stop / 64) = some x ∧
      Chunk P (64 * (stop / 64)) stop (stop / 64) (logand (computeEndMask stop) x) := by
  obtain ⟨x, hx, hnonneg, hlt, hbits⟩ :=
    h.read (stop / 64) (64 * (stop / 64)) hlo (by omega) (by omega)
  refine ⟨x, hx, Chunk.of_mask hnonneg hlt hbits (by omega) (by omega) fun j hj => ?_⟩
  rw [testBit_endMask, decide_eq_true_iff]
  omega

theorem Words.full (h : Words frob vector P start stop) (hlo : start ≤ 64 * w)
    (hhi : 64 * (w + 1) ≤ stop) :
    ∃ x, getWord frob vector w = some x ∧ Chunk P (64 * w) (64 * (w + 1)) w x := by
  obtain ⟨x, hx, hnonneg, hlt, hbits⟩ := h.read w (64 * w) hlo (by omega) (by omega)
  refine ⟨x, hx, le_rfl, le_rfl, hnonneg, hlt, fun j hj => ?_⟩
  rw [hbits j hj]
  exact ⟨fun hP => ⟨by omega, by omega, hP⟩, fun hP => hP.2.2⟩

/-- Both masks pertain to a word: it is read if the range is not empty, and an end of it is found.
-/
theorem oneWord_spec (h : Words frob vector P start stop) (hle : start ≤ stop)
    (hword : ¬ start / 64 < stop / 64) (bit : ℤ → ℕ) :
    (Places P start stop = ∅ ∧ oneWord frob vector bit (computeStartMask start)
      (computeEndMask stop) (start / 64) = some none) ∨
      ∃ z, z ≠ 0 ∧ Chunk P start stop (start / 64) z ∧
        oneWord frob vector bit (computeStartMask start) (computeEndMask stop) (start / 64) =
          some (some (calcIndex (start / 64) (bit z))) := by
  unfold oneWord
  have hbits : ∀ j < 64, (logand (computeStartMask start) (computeEndMask stop)).testBit j = true ↔
      start ≤ 64 * (start / 64) + j ∧ 64 * (start / 64) + j < stop := by
    intro j hj
    rw [logand, testBit_land, Bool.and_eq_true, testBit_startMask, testBit_endMask,
      decide_eq_true_iff, decide_eq_true_iff]
    omega
  by_cases hmask : logand (computeStartMask start) (computeEndMask stop) = 0
  · rw [if_pos hmask]
    refine .inl ⟨places_eq_empty_iff.2 fun i hlo hhi _ => ?_, rfl⟩
    have hbit := (hbits (i % 64) (Nat.mod_lt i (by decide))).2 (by omega)
    rw [hmask, IntBits.testBit_zero] at hbit
    cases hbit
  · rw [if_neg hmask]
    have hlt : start < stop := by
      by_contra hge
      refine hmask (IntBits.eq_of_testBit_eq fun j => ?_)
      rw [logand, testBit_land, testBit_startMask, testBit_endMask, IntBits.testBit_zero,
        Bool.and_eq_false_iff, decide_eq_false_iff_not, decide_eq_false_iff_not]
      omega
    obtain ⟨x, hx, hnonneg, hxlt, hxbits⟩ := h.read (start / 64) start le_rfl hlt rfl
    have hchunk :
        Chunk P start stop (start / 64)
          (logand (logand (computeStartMask start) (computeEndMask stop)) x) :=
      Chunk.of_mask hnonneg hxlt hxbits (by omega) (by omega) hbits
    rw [hx]
    simp only [bind_eq_bind, bind_some]
    by_cases hzero : logand (logand (computeStartMask start) (computeEndMask stop)) x = 0
    · rw [if_pos hzero]
      rw [hzero] at hchunk
      exact .inl ⟨hchunk.eq_empty, rfl⟩
    · rw [if_neg hzero]
      exact .inr ⟨_, hzero, hchunk, rfl⟩

theorem scanForward_spec (h : Words frob vector P start stop) (w : ℕ) (hlo : start ≤ 64 * w)
    (hhi : w ≤ stop / 64) :
    ∃ r, scanForward frob vector (computeEndMask stop) (stop / 64) w = some r ∧
      IsFirst (Places P (64 * w) stop) r := by
  induction hn : stop / 64 - w generalizing w with
  | zero =>
    obtain rfl : w = stop / 64 := by omega
    rw [scanForward, if_neg (lt_irrefl _)]
    by_cases hmod : stop % 64 = 0
    · rw [if_pos ((computeEndMask_eq_zero_iff stop).2 hmod)]
      exact ⟨none, rfl, places_eq_empty_iff.2 fun i hi hi' => by omega⟩
    rw [if_neg (mt (computeEndMask_eq_zero_iff stop).1 hmod)]
    obtain ⟨x, hx, hchunk⟩ := h.atStop hlo hmod
    rw [hx]
    simp only [bind_eq_bind, bind_some]
    by_cases hzero : logand (computeEndMask stop) x = 0
    · rw [if_pos hzero]
      rw [hzero] at hchunk
      exact ⟨none, rfl, hchunk.eq_empty⟩
    · rw [if_neg hzero]
      exact ⟨_, rfl, hchunk.isLeast hzero⟩
  | succ n ih =>
    rw [scanForward, if_pos (by omega)]
    obtain ⟨x, hx, hchunk⟩ := h.full hlo (by omega)
    rw [hx]
    simp only [bind_eq_bind, bind_some]
    by_cases hzero : x = 0
    · rw [if_neg (not_not_intro hzero)]
      rw [hzero] at hchunk
      obtain ⟨r, hr, hfirst⟩ := ih (w + 1) (by omega) (by omega) (by omega)
      rw [places_left hchunk.eq_empty (by omega)] at hfirst
      exact ⟨r, hr, hfirst⟩
    · rw [if_pos hzero]
      exact ⟨_, rfl, isLeast_left (hchunk.isLeast hzero) (by omega)⟩

theorem scanBackward_spec (h : Words frob vector P start stop) (w : ℕ) (hlo : start / 64 ≤ w)
    (hhi : 64 * (w + 1) ≤ stop) :
    ∃ r, scanBackward frob vector (computeStartMask start) (start / 64) w = some r ∧
      IsLast (Places P start (64 * (w + 1))) r := by
  induction hn : w - start / 64 generalizing w with
  | zero =>
    obtain rfl : w = start / 64 := by omega
    rw [scanBackward, if_neg (lt_irrefl _)]
    obtain ⟨x, hx, hchunk⟩ := h.atStart (by omega) rfl
    rw [hx]
    simp only [bind_eq_bind, bind_some]
    by_cases hzero : logand (computeStartMask start) x = 0
    · rw [if_pos hzero]
      rw [hzero] at hchunk
      exact ⟨none, rfl, hchunk.eq_empty⟩
    · rw [if_neg hzero]
      exact ⟨_, rfl, hchunk.isGreatest hzero⟩
  | succ n ih =>
    rw [scanBackward, if_pos (by omega)]
    obtain ⟨x, hx, hchunk⟩ := h.full (w := w) (by omega) hhi
    rw [hx]
    simp only [bind_eq_bind, bind_some]
    by_cases hzero : x = 0
    · rw [if_neg (not_not_intro hzero)]
      rw [hzero] at hchunk
      obtain ⟨r, hr, hlast⟩ := ih (w - 1) (by omega) (by omega) (by omega)
      rw [show w - 1 + 1 = w by omega, places_right hchunk.eq_empty (by omega)] at hlast
      exact ⟨r, hr, hlast⟩
    · rw [if_pos hzero]
      exact ⟨_, rfl, isGreatest_right (hchunk.isGreatest hzero) (by omega)⟩

theorem bitPosFwd_spec (h : Words frob vector P start stop) (hle : start ≤ stop) :
    ∃ r, bitPosFwd frob vector start stop = some r ∧ IsFirst (Places P start stop) r := by
  unfold bitPosFwd
  rw [shiftRight_base, shiftRight_base]
  by_cases hword : start / 64 < stop / 64
  · rw [if_neg (not_not_intro hword)]
    obtain ⟨x, hx, hchunk⟩ := h.atStart (by omega) rfl
    rw [hx]
    simp only [bind_eq_bind, bind_some]
    by_cases hzero : logand (computeStartMask start) x = 0
    · rw [if_neg (not_not_intro hzero)]
      rw [hzero] at hchunk
      obtain ⟨r, hr, hfirst⟩ := scanForward_spec h (start / 64 + 1) (by omega) (by omega)
      rw [places_left hchunk.eq_empty (by omega)] at hfirst
      exact ⟨r, hr, hfirst⟩
    · rw [if_pos hzero]
      exact ⟨_, rfl, isLeast_left (hchunk.isLeast hzero) (by omega)⟩
  · rw [if_pos hword]
    rcases oneWord_spec h hle hword startBit with ⟨hempty, hone⟩ | ⟨z, hz, hchunk, hone⟩
    · exact ⟨none, hone, hempty⟩
    · exact ⟨_, hone, hchunk.isLeast hz⟩

theorem bitPosRev_spec (h : Words frob vector P start stop) (hle : start ≤ stop) :
    ∃ r, bitPosRev frob vector start stop = some r ∧ IsLast (Places P start stop) r := by
  unfold bitPosRev
  rw [shiftRight_base, shiftRight_base]
  by_cases hword : start / 64 < stop / 64
  · rw [if_neg (not_not_intro hword)]
    obtain ⟨r, hr, hlast⟩ := scanBackward_spec h (stop / 64 - 1) (by omega) (by omega)
    rw [show stop / 64 - 1 + 1 = stop / 64 by omega] at hlast
    by_cases hmod : stop % 64 = 0
    · rw [if_pos ((computeEndMask_eq_zero_iff stop).2 hmod)]
      rw [show 64 * (stop / 64) = stop by omega] at hlast
      exact ⟨r, hr, hlast⟩
    rw [if_neg (mt (computeEndMask_eq_zero_iff stop).1 hmod)]
    obtain ⟨x, hx, hchunk⟩ := h.atStop (by omega) hmod
    rw [hx]
    simp only [bind_eq_bind, bind_some]
    by_cases hzero : logand (computeEndMask stop) x = 0
    · rw [if_neg (not_not_intro hzero)]
      rw [hzero] at hchunk
      rw [places_right hchunk.eq_empty (by omega)] at hlast
      exact ⟨r, hr, hlast⟩
    · rw [if_pos hzero]
      exact ⟨_, rfl, isGreatest_right (hchunk.isGreatest hzero) (by omega)⟩
  · rw [if_pos hword]
    rcases oneWord_spec h hle hword endBit with ⟨hempty, hone⟩ | ⟨z, hz, hchunk, hone⟩
    · exact ⟨none, hone, hempty⟩
    · exact ⟨_, hone, hchunk.isGreatest hz⟩

end Searches

/-! ## Ones and zeros -/

/-- The bit of a vector at an index. -/
def bitAt (words : ℕ → Word) (i : ℕ) : Bool := (words (i / 64)).getLsbD (i % 64)

variable {words : ℕ → Word} {vector : RawBits} {start stop : ℕ}

theorem bitAt_word (words : ℕ → Word) (w : ℕ) {j : ℕ} (hj : j < 64) :
    bitAt words (64 * w + j) = (words w).getLsbD j := by
  rw [bitAt, show (64 * w + j) / 64 = w by omega, show (64 * w + j) % 64 = j by omega]

theorem words_ones (hread : ∀ i, start ≤ i → i < stop → vector (i / 64) = some (words (i / 64))) :
    Words id vector (fun i => bitAt words i = true) start stop where
  read w i hlo hhi hw := by
    refine ⟨((words w).toNat : ℤ), ?_, by positivity, by exact_mod_cast (words w).isLt,
      fun j hj => ?_⟩
    · rw [getWord, ← hw, hread i hlo hhi]
      rfl
    · rw [bitAt_word words w hj, IntBits.testBit_natCast, BitVec.testBit_toNat]

theorem inverted_eq (x : ℤ) : inverted x = lognot x % 2 ^ 64 := by
  refine IntBits.eq_of_testBit_eq fun j => ?_
  rw [inverted, logandc2, testBit_ldiff, IntBits.testBit_pow_sub_one, IntBits.testBit_emod,
    lognot, testBit_lnot]
  rfl

theorem words_zeros (hread : ∀ i, start ≤ i → i < stop → vector (i / 64) = some (words (i / 64))) :
    Words inverted vector (fun i => bitAt words i = false) start stop where
  read w i hlo hhi hw := by
    refine ⟨inverted (words w).toNat, ?_, ?_, ?_, fun j hj => ?_⟩
    · rw [getWord, ← hw, hread i hlo hhi]
      rfl
    · rw [inverted_eq]
      exact emod_nonneg _ (by decide)
    · rw [inverted_eq]
      exact emod_lt_of_pos _ (by decide)
    · rw [inverted_eq, IntBits.testBit_emod, decide_eq_true hj, Bool.true_and, lognot, testBit_lnot,
        IntBits.testBit_natCast, BitVec.testBit_toNat, Bool.not_eq_true', bitAt_word words w hj]

/-- Each search returns the first or the last place of the range with the bit that it is for, if
there is one, and reads no word without a place of the range: the other words need not be there. -/
theorem bitPos_exact (words : ℕ → Word) (vector : RawBits) (start stop : ℕ) (hle : start ≤ stop)
    (hread : ∀ i, start ≤ i → i < stop → vector (i / 64) = some (words (i / 64))) :
    (∃ r, bitPosFwd1 vector start stop = some r ∧
      IsFirst (Places (fun i => bitAt words i = true) start stop) r) ∧
    (∃ r, bitPosFwd0 vector start stop = some r ∧
      IsFirst (Places (fun i => bitAt words i = false) start stop) r) ∧
    (∃ r, bitPosRev1 vector start stop = some r ∧
      IsLast (Places (fun i => bitAt words i = true) start stop) r) ∧
    ∃ r, bitPosRev0 vector start stop = some r ∧
      IsLast (Places (fun i => bitAt words i = false) start stop) r :=
  ⟨bitPosFwd_spec (words_ones hread) hle, bitPosFwd_spec (words_zeros hread) hle,
    bitPosRev_spec (words_ones hread) hle, bitPosRev_spec (words_zeros hread) hle⟩

/-- A vector of 70 bits: its words are read up to the last place only. -/
theorem bitPos_exact_seventy :
    let words : ℕ → Word := fun w => if w = 0 then 0x80 else 0xffffffffffffffdf
    let vector : RawBits := fun w => if w < 2 then some (words w) else none
    (∃ r, bitPosFwd1 vector 3 70 = some r ∧
      IsFirst (Places (fun i => bitAt words i = true) 3 70) r) ∧
    (∃ r, bitPosFwd0 vector 3 70 = some r ∧
      IsFirst (Places (fun i => bitAt words i = false) 3 70) r) ∧
    (∃ r, bitPosRev1 vector 3 70 = some r ∧
      IsLast (Places (fun i => bitAt words i = true) 3 70) r) ∧
    ∃ r, bitPosRev0 vector 3 70 = some r ∧
      IsLast (Places (fun i => bitAt words i = false) 3 70) r :=
  bitPos_exact _ _ 3 70 (by decide) fun i _ hi => if_pos (by omega)

end Sbcl.BitPos
