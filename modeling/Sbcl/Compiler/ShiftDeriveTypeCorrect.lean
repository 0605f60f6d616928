import Mathlib.Tactic.LinearCombination
import Sbcl.Compiler.BitopsDeriveTypeCorrect
import Sbcl.Compiler.ShiftDeriveType

/-!
# Soundness of the derived types of shifts, lengths, counts and fields

* `ash_le_ash`, `ash_mono`, `ash_anti` : a shift grows with the integer, and away from zero with the
  count;
* `mem_ashDeriveTypeAux` : a shift is in its derived type;
* `exists_unbounded_high`, `exists_unbounded_low` : beyond the cutoff the type has no bound;
* `derives_integerLength`, `derives_logcount` : lengths and counts are in theirs;
* `derives_ldb`, `derives_dpbComputed`, `derives_depositField` : the fields made by shifts and
  masks;
* `derives_dpb_iff` : what is known of a byte `(byte size (- a size))` leaves room for the integer,
  not for what is put in it.
-/

namespace Sbcl.Compiler

open IntBits IntegerType List Option Int

variable {n m c d : ℤ}

/-! ## Shifts -/

theorem ash_eq_half (n c : ℤ) : ash n c = ash n (c + 1) / 2 := by
  obtain ⟨k, rfl⟩ | ⟨k, rfl⟩ : (∃ k : ℕ, c = k) ∨ ∃ k : ℕ, c = -(k + 1) := by
    rcases Int.le_total 0 c with h | h
    · exact .inl (eq_ofNat_of_zero_le h)
    · by_cases h0 : c = 0
      · exact .inl ⟨0, h0⟩
      · exact .inr ⟨(-c - 1).toNat, by omega⟩
  · rw [ash_ofNat, show (k : ℤ) + 1 = (k + 1 : ℕ) by push_cast; rfl, ash_ofNat,
      pow_succ, ← mul_assoc, mul_ediv_cancel _ two_ne_zero]
  · rw [show -((k : ℤ) + 1) = -(k + 1 : ℕ) by push_cast; rfl, ash_neg,
      show -((k + 1 : ℕ) : ℤ) + 1 = -(k : ℕ) by push_cast; ring, ash_neg, pow_succ,
      ediv_ediv_of_nonneg (by positivity)]

theorem ash_nonneg (h : 0 ≤ n) (c : ℤ) : 0 ≤ ash n c := by
  obtain ⟨k, rfl | rfl⟩ := c.eq_nat_or_neg
  · rw [ash_ofNat]
    positivity
  · rw [ash_neg]
    positivity

theorem ash_of_neg (h : n < 0) (c : ℤ) : ash n c < 0 := by
  obtain ⟨k, rfl | rfl⟩ := c.eq_nat_or_neg
  · rw [ash_ofNat]
    exact mul_neg_of_neg_of_pos h (by positivity)
  · rw [ash_neg]
    exact ediv_neg_of_neg_of_pos h (by positivity)

theorem ash_le_ash (h : m ≤ n) (c : ℤ) : ash m c ≤ ash n c := by
  obtain ⟨k, rfl | rfl⟩ := c.eq_nat_or_neg
  · rw [ash_ofNat, ash_ofNat]
    exact mul_le_mul_of_nonneg_right h (by positivity)
  · rw [ash_neg, ash_neg]
    exact Int.ediv_le_ediv (by positivity) h

theorem ash_mono (h : 0 ≤ n) (hcd : c ≤ d) : ash n c ≤ ash n d := by
  induction d, hcd using Int.leInduction with
  | base => exact le_rfl
  | succ d _ ih =>
    have := ash_eq_half n d
    have := ash_nonneg h (d + 1)
    omega

theorem ash_anti (h : n < 0) (hcd : c ≤ d) : ash n d ≤ ash n c := by
  induction d, hcd using Int.leInduction with
  | base => exact le_rfl
  | succ d _ ih =>
    have := ash_eq_half n d
    have := ash_of_neg h (d + 1)
    omega

theorem ash_zero_left (c : ℤ) : ash 0 c = 0 := by
  obtain ⟨k, rfl | rfl⟩ := c.eq_nat_or_neg
  · rw [ash_ofNat, zero_mul]
  · rw [ash_neg, zero_ediv]

theorem ash_of_ashOuter {s : Option ℤ} {r : ℤ} (h : r ∈ ashOuter n s) : ∃ c ∈ s, r = ash n c := by
  obtain ⟨c, hc, h⟩ := bind_eq_some_iff.1 h
  split_ifs at h
  exact ⟨c, hc, (Option.some.inj h).symm⟩

theorem ashOuter_eq_none {s : Option ℤ} (h : ∀ c ∈ s, leftShiftDeriveTypeCutoff < c) (n : ℤ) :
    ashOuter n s = none := by
  cases s with
  | none => rfl
  | some c => exact if_neg fun hc => (h c rfl).not_ge hc.2.1

theorem ashInner_le (h : 0 ≤ n) {s : Option ℤ} (hs : ∀ b ∈ s, b ≤ c) : ashInner n s ≤ ash n c := by
  unfold ashInner
  split
  · split
    · exact ash_mono h ((min_le_left _ _).trans (hs _ rfl))
    · rw [if_neg (not_lt.2 h)]
      exact ash_nonneg h c
  · rw [if_neg (not_lt.2 h)]
    exact ash_nonneg h c

theorem le_ashInner (h : n < 0) {s : Option ℤ} (hs : ∀ b ∈ s, b ≤ c) : ash n c ≤ ashInner n s := by
  have hneg := ash_of_neg h c
  unfold ashInner
  split
  · split
    · exact ash_anti h ((min_le_left _ _).trans (hs _ rfl))
    · omega
  · rw [if_pos h]
    omega

variable {shift : IntegerType}

theorem mem_ashMake {nLow nHigh : Option ℤ} (hlow : ∀ l ∈ nLow, l ≤ n) (hhigh : ∀ h ∈ nHigh, n ≤ h)
    (hc : c ∈ shift) : (ashMake nLow nHigh shift.low shift.high).Mem (ash n c) := by
  refine mem_specifierInteger (fun r hr => ?_) fun r hr => ?_
  · obtain ⟨l, hl, hr⟩ := bind_eq_some_iff.1 hr
    have hln := hlow l hl
    split_ifs at hr with hneg
    · obtain ⟨sHigh, hsHigh, rfl⟩ := ash_of_ashOuter hr
      exact (ash_anti hneg (le_high hc hsHigh)).trans (ash_le_ash hln c)
    · obtain rfl := Option.some.inj hr
      exact (ashInner_le (not_lt.1 hneg) hc.1).trans (ash_le_ash hln c)
  · obtain ⟨h, hh, hr⟩ := bind_eq_some_iff.1 hr
    have hnh := hhigh h hh
    split_ifs at hr with hneg
    · obtain rfl := Option.some.inj hr
      exact (ash_le_ash hnh c).trans (le_ashInner hneg hc.1)
    · obtain ⟨sHigh, hsHigh, rfl⟩ := ash_of_ashOuter hr
      exact (ash_le_ash hnh c).trans (ash_mono (not_lt.1 hneg) (le_high hc hsHigh))

theorem mem_eqlZero (c : ℤ) : eqlZero.Mem (ash 0 c) := by
  rw [ash_zero_left]
  exact mem_specifierInteger (by simp) (by simp)

variable {nType : IntegerType}

theorem mem_ashDeriveTypeAux (hn : n ∈ nType) (hc : c ∈ shift) :
    (ashDeriveTypeAux nType shift).Mem (ash n c) := by
  unfold ashDeriveTypeAux
  dsimp only
  split_ifs with hlow hhigh hboth
  · rcases (low_le hn hlow).eq_or_lt with rfl | hpos
    · exact (mem_eqlZero c).append_left _
    · refine Ctype.Mem.append_right (mem_ashMake ?_ hn.2 hc) _
      simpa using add_one_le_iff.2 hpos
  · rcases (le_high hn hhigh).eq_or_lt with rfl | hneg
    · exact (mem_eqlZero c).append_left _
    · refine Ctype.Mem.append_right (mem_ashMake hn.1 ?_ hc) _
      simpa using le_sub_one_of_lt hneg
  · rcases lt_trichotomy n 0 with hneg | rfl | hpos
    · refine ((mem_ashMake hn.1 ?_ hc).append_left _).append_left _
      simpa using le_sub_one_of_lt hneg
    · exact ((mem_eqlZero c).append_right _).append_left _
    · refine Ctype.Mem.append_right (mem_ashMake ?_ hn.2 hc) _
      simpa using add_one_le_iff.2 hpos
  · exact mem_ashMake hn.1 hn.2 hc

theorem mem_specifierInteger_none_high (low : Option ℤ) : ∃ r ∈ specifierInteger low none,
    r.high = none := by
  rw [specifierInteger, make_eq (by simp)]
  exact ⟨_, mem_singleton_self _, rfl⟩

theorem mem_specifierInteger_none_low (high : Option ℤ) : ∃ r ∈ specifierInteger none high,
    r.low = none := by
  rw [specifierInteger, make_eq (by simp)]
  exact ⟨_, mem_singleton_self _, rfl⟩

theorem exists_unbounded_make {nHigh : Option ℤ} (hh : ∀ h ∈ nHigh, 0 < h) (nLow : Option ℤ)
    (hs : ∀ c ∈ shift.high, leftShiftDeriveTypeCutoff < c) :
    ∃ r ∈ ashMake nLow nHigh shift.low shift.high, r.high = none := by
  unfold ashMake
  have hnone :
      (nHigh.bind fun h => if h < 0 then some (ashInner h shift.low) else ashOuter h shift.high) =
        none := by
    cases nHigh with
    | none => rfl
    | some h => exact (if_neg (hh h rfl).not_gt).trans (ashOuter_eq_none hs h)
  rw [hnone]
  exact mem_specifierInteger_none_high _

theorem exists_unbounded_high (hh : ∀ h ∈ nType.high, 0 < h)
    (hs : ∀ c ∈ shift.high, leftShiftDeriveTypeCutoff < c) : ∃ r ∈ ashDeriveTypeAux nType shift,
      r.high = none := by
  have happend {s : Ctype} (t : Ctype) (h : ∃ r ∈ s, r.high = none) : ∃ r ∈ t ++ s,
      r.high = none := by
    obtain ⟨r, hr, hnone⟩ := h
    exact ⟨r, mem_append_right t hr, hnone⟩
  unfold ashDeriveTypeAux
  dsimp only
  split_ifs with hlow hhigh hboth
  · exact happend _ (exists_unbounded_make hh _ hs)
  · exact absurd (hh 0 hhigh) (lt_irrefl 0)
  · exact happend _ (exists_unbounded_make hh _ hs)
  · exact exists_unbounded_make hh _ hs

theorem exists_unbounded_low (hl : ∀ l ∈ nType.low, l < 0)
    (hs : ∀ c ∈ shift.high, leftShiftDeriveTypeCutoff < c) : ∃ r ∈ ashDeriveTypeAux nType shift,
      r.low = none := by
  have hmake (nHigh : Option ℤ) : ∃ r ∈ ashMake nType.low nHigh shift.low shift.high,
      r.low = none := by
    unfold ashMake
    have hnone :
        (nType.low.bind fun l =>
          if l < 0 then ashOuter l shift.high else some (ashInner l shift.low)) = none := by
      rcases hlow : nType.low with _ | l
      · rfl
      · exact (if_pos (hl l hlow)).trans (ashOuter_eq_none hs l)
    rw [hnone]
    exact mem_specifierInteger_none_low _
  unfold ashDeriveTypeAux
  dsimp only
  split_ifs with hlow hhigh hboth
  · exact absurd (hl 0 hlow) (lt_irrefl 0)
  · obtain ⟨r, hr, hnone⟩ := hmake (some (-1))
    exact ⟨r, mem_append_right _ hr, hnone⟩
  · obtain ⟨r, hr, hnone⟩ := hmake (some (-1))
    exact ⟨r, mem_append_left _ (mem_append_left _ hr), hnone⟩
  · exact hmake _

/-! ## Lengths and counts -/

variable {lo hi : ℤ}

theorem integerLength_le_max (hlo : lo ≤ n) (hhi : n ≤ hi) :
    integerLength n ≤ max (integerLength lo) (integerLength hi) := by
  by_cases h : 0 ≤ n
  · exact (integerLength_mono h hhi).trans (le_max_right _ _)
  · exact (integerLength_anti hlo (not_le.1 h)).trans (le_max_left _ _)

variable {x : IntegerType}

theorem derives_integerLength_aux (hn : n ∈ x) :
    Derives (integerLengthDeriveType x) (integerLength n) := by
  intro t ht
  rw [mem_def] at ht
  unfold integerLengthDeriveType at ht
  split at ht
  · rename_i lo hi hlow hhigh
    obtain rfl := Option.some.inj ht
    have hlo := low_le hn hlow
    have hhi := le_high hn hhigh
    refine mem_specifierInteger ?_ ?_
    · rintro _ ⟨⟩
      split_ifs with h
      · exact natCast_nonneg _
      refine ofNat_le.2 ?_
      by_cases h0 : 0 < lo
      · exact (min_le_left _ _).trans (integerLength_mono h0.le hlo)
      · exact (min_le_right _ _).trans (integerLength_anti hhi (by omega))
    · rintro _ ⟨⟩
      exact ofNat_le.2 (integerLength_le_max hlo hhi)
  · rename_i lo hlow hhigh
    split_ifs at ht with h
    obtain rfl := Option.some.inj ht
    refine mem_specifierInteger ?_ (by simp)
    rintro _ ⟨⟩
    exact ofNat_le.2 (integerLength_mono h.le (low_le hn hlow))
  · rename_i hi hlow hhigh
    split_ifs at ht with h
    obtain rfl := Option.some.inj ht
    refine mem_specifierInteger ?_ (by simp)
    rintro _ ⟨⟩
    exact ofNat_le.2 (integerLength_anti (le_high hn hhigh) h)
  · cases ht

theorem derives_integerLength {x : Ctype} (hn : x.Mem n) :
    Derives (oneArgDeriveType x integerLengthDeriveType) (integerLength n) :=
  oneArgDeriveType_sound hn fun _ => derives_integerLength_aux

theorem ash_one_sub (l : ℕ) : ash 1 l - 1 = 2 ^ l - 1 := by
  rw [ash_ofNat, one_mul]

theorem ash_neg_one_left (l : ℕ) : ash (-1) l = -(2 ^ l) := by
  rw [ash_ofNat, neg_one_mul]

theorem logcount_le_countHigh (hlo : lo ≤ n) (hhi : n ≤ hi) : logcount n ≤ countHigh lo hi := by
  have hlen := integerLength_le_max hlo hhi
  unfold countHigh
  dsimp only
  rw [ash_one_sub, ash_neg_one_left]
  set l := max (integerLength lo) (integerLength hi) with hl
  split_ifs with hend
  · have := logcount_le hlen
    omega
  have hhi' := ((fits_integerLength hi).mono (le_max_right (integerLength lo) _)).2
  have hlo' := ((fits_integerLength lo).mono (le_max_left _ (integerLength hi))).1
  rw [← hl] at hhi' hlo'
  have hlt : logcount n < l := by
    by_cases h0 : 0 ≤ n
    · exact logcount_lt h0 (by omega)
    · rw [← logcount_lognot]
      refine logcount_lt ?_ ?_ <;> rw [lognot_eq] <;> omega
  omega

theorem ediv_eq_of_logxor (h0 : 0 ≤ lo) (hlo : lo ≤ n) (hhi : n ≤ hi) :
    n / 2 ^ integerLength (logxor lo hi) = lo / 2 ^ integerLength (logxor lo hi) := by
  have hends : lo / 2 ^ integerLength (logxor lo hi) = hi / 2 ^ integerLength (logxor lo hi) := by
    have hpos : 0 ≤ logxor lo hi := by
      have := lxor_neg_iff lo hi
      rw [logxor]
      omega
    refine eq_of_testBit_eq fun i => ?_
    have hbit := testBit_of_integerLength_le (n := logxor lo hi) (Nat.le_add_left _ i)
    rw [logxor, testBit_lxor, ← logxor, decide_eq_false (not_lt.2 hpos)] at hbit
    rw [testBit_ediv, testBit_ediv]
    simpa using hbit
  have hk : (0 : ℤ) < 2 ^ integerLength (logxor lo hi) := by positivity
  exact le_antisymm ((Int.ediv_le_ediv hk hhi).trans_eq hends.symm) (Int.ediv_le_ediv hk hlo)

theorem ldb_zero (k : ℕ) (n : ℤ) : ldb k 0 n = n % 2 ^ k := by
  rw [ldb, Nat.cast_zero, neg_zero, show (0 : ℤ) = ((0 : ℕ) : ℤ) from rfl, ash_ofNat,
    pow_zero, mul_one]

theorem countBoundsAux_spec (h0 : 0 ≤ lo) (hlo : lo ≤ n) (hhi : n ≤ hi) :
    (countBoundsAux lo hi).low ≤ logcount n ∧
      logcount n ≤ (countBoundsAux lo hi).adjust + countHigh (countBoundsAux lo hi).lo
        (countBoundsAux lo hi).hi := by
  unfold countBoundsAux
  split_ifs with hlen hzero
  · dsimp only
    set k := integerLength (logxor lo hi) with hk
    have hcommon := ediv_eq_of_logxor h0 hlo hhi
    have hcommonHi := ediv_eq_of_logxor h0 (hlo.trans hhi) le_rfl
    rw [← hk] at hcommon hcommonHi
    have hsplit := logcount_split (h0.trans hlo) k
    rw [hcommon] at hsplit
    have hash : ash lo (-k) = lo / 2 ^ k := ash_neg lo k
    rw [ldb_zero, ldb_zero, hash]
    have hlow : lo % 2 ^ k ≤ n % 2 ^ k := emod_le_emod hlo hcommon.symm
    have hhigh : n % 2 ^ k ≤ hi % 2 ^ k := emod_le_emod hhi (hcommon.trans hcommonHi.symm)
    refine ⟨?_, ?_⟩
    · split_ifs with hz
      · omega
      · have := logcount_pos (n := n % 2 ^ k) (by omega)
        omega
    · have := logcount_le_countHigh hlow hhigh
      omega
  · refine ⟨natCast_nonneg _, ?_⟩
    have := logcount_le_countHigh hlo hhi
    simpa using this
  · have hpos := logcount_pos (n := n) (by omega)
    have := logcount_le_countHigh hlo hhi
    refine ⟨?_, by simpa using this⟩
    show (1 : ℤ) ≤ logcount n
    omega

theorem countBounds_spec (hlo : lo ≤ n) (hhi : n ≤ hi) :
    (countBounds lo hi).low ≤ logcount n ∧
      logcount n ≤ (countBounds lo hi).adjust + countHigh (countBounds lo hi).lo
        (countBounds lo hi).hi := by
  unfold countBounds
  split_ifs with hboth hneg
  · refine ⟨natCast_nonneg _, ?_⟩
    have := logcount_le_countHigh hlo hhi
    simpa using this
  · rw [← logcount_lognot n]
    refine countBoundsAux_spec ?_ ?_ ?_ <;> simp only [lognot_eq] <;> omega
  · exact countBoundsAux_spec (not_lt.1 hneg) hlo hhi

theorem derives_logcount_aux (hn : n ∈ x) : Derives (logcountDeriveType x) (logcount n) := by
  intro t ht
  rw [mem_def] at ht
  unfold logcountDeriveType at ht
  split at ht
  · rename_i lo hi hlow hhigh
    obtain rfl := Option.some.inj ht
    have hspec := countBounds_spec (low_le hn hlow) (le_high hn hhigh)
    exact mem_specifierInteger (by simpa using hspec.1) (by simpa using hspec.2)
  · rename_i lo hlow hhigh
    split_ifs at ht with h
    obtain rfl := Option.some.inj ht
    have hpos := logcount_pos (h.trans_le (low_le hn hlow))
    refine mem_specifierInteger ?_ (by simp)
    rintro _ ⟨⟩
    omega
  · rename_i hi hlow hhigh
    split_ifs at ht with h
    obtain rfl := Option.some.inj ht
    have hle := le_high hn hhigh
    have hpos := logcount_pos (n := lognot n) (by rw [lognot_eq]; omega)
    rw [logcount_lognot] at hpos
    refine mem_specifierInteger ?_ (by simp)
    rintro _ ⟨⟩
    omega
  · cases ht

theorem derives_logcount {x : Ctype} (hn : x.Mem n) :
    Derives (oneArgDeriveType x logcountDeriveType) (logcount n) :=
  oneArgDeriveType_sound hn fun _ => derives_logcount_aux

/-! ## Fields -/

theorem Derives.bind {d : Option Ctype} {f : Ctype → Option Ctype} (h : Derives d m)
    (hf : ∀ t, t.Mem m → Derives (f t) n) : Derives (d.bind f) n := by
  intro u hu
  obtain ⟨t, ht, hu⟩ := bind_eq_some_iff.1 hu
  exact hf t (h t ht) u hu

theorem mem_lognotDeriveTypeAux {t : IntegerType} (hn : n ∈ t) :
    lognot n ∈ lognotDeriveTypeAux t := by
  refine ⟨fun l hl => ?_, fun h hh => ?_⟩
  · obtain ⟨hi, hhi, rfl⟩ := map_eq_some_iff.1 hl
    have := le_high hn hhi
    simp only [lognot_eq]
    omega
  · obtain ⟨lo, hlo, rfl⟩ := map_eq_some_iff.1 hh
    have := low_le hn hlo
    simp only [lognot_eq]
    omega

theorem mem_negateDeriveTypeAux {t : IntegerType} (hn : n ∈ t) : -n ∈ negateDeriveTypeAux t := by
  refine ⟨fun l hl => ?_, fun h hh => ?_⟩
  · obtain ⟨hi, hhi, rfl⟩ := map_eq_some_iff.1 hl
    exact neg_le_neg (le_high hn hhi)
  · obtain ⟨lo, hlo, rfl⟩ := map_eq_some_iff.1 hh
    exact neg_le_neg (low_le hn hlo)

variable {y : IntegerType}

theorem logandAux_sound (hm : m ∈ x) (hn : n ∈ y) :
    ∃ t, logandAux x y false = some t ∧ t.Mem (logand m n) := by
  obtain ⟨r, hr, -, hmem⟩ := logandDeriveTypeAux_sound x y
  exact ⟨r.type, by rw [logandAux, hr]; rfl, hmem _ ⟨m, hm, n, hn, rfl⟩⟩

theorem logiorAux_sound (hm : m ∈ x) (hn : n ∈ y) :
    ∃ t, logiorAux x y false = some t ∧ t.Mem (logior m n) := by
  obtain ⟨r, hr, -, hmem⟩ := logiorDeriveTypeAux_sound x y
  exact ⟨r.type, by rw [logiorAux, hr]; rfl, hmem _ ⟨m, hm, n, hn, rfl⟩⟩

theorem ashAux_sound (hm : m ∈ x) (hn : n ∈ y) : ∃ t, ashAux x y false = some t ∧ t.Mem (ash m n) :=
  ⟨_, rfl, mem_ashDeriveTypeAux hm hn⟩

variable {t : Ctype}

theorem derives_logand {s : Ctype} (hm : s.Mem m) (hn : t.Mem n) :
    Derives (twoArgDeriveType s t logandAux false) (logand m n) :=
  twoArgDeriveType_sound hm hn (by simp) fun _ _ => logandAux_sound

theorem derives_logior {s : Ctype} (hm : s.Mem m) (hn : t.Mem n) :
    Derives (twoArgDeriveType s t logiorAux false) (logior m n) :=
  twoArgDeriveType_sound hm hn (by simp) fun _ _ => logiorAux_sound

theorem derives_ash {s : Ctype} (hm : s.Mem m) (hn : t.Mem n) :
    Derives (twoArgDeriveType s t ashAux false) (ash m n) :=
  twoArgDeriveType_sound hm hn (by simp) fun _ _ => ashAux_sound

theorem lognot_ash_neg_one (size : ℕ) : lognot (ash (-1) size) = 2 ^ size - 1 := by
  rw [lognot_eq, ash_neg_one_left]
  ring

theorem mem_maskDeriveType {size : ℕ} (h : (size : ℤ) ∈ x) :
    (maskDeriveType x).Mem (2 ^ size - 1) := by
  have hminus : -1 ∈ minusOne := ⟨by simp [minusOne], by simp [minusOne]⟩
  obtain ⟨t, ht, hmem⟩ := mem_ashDeriveTypeAux hminus h
  refine ⟨_, mem_map_of_mem ht, ?_⟩
  rw [← lognot_ash_neg_one]
  exact mem_lognotDeriveTypeAux hmem

theorem derives_mask {size : ℕ} (h : t.Mem size) :
    Derives (oneArgDeriveType t fun x => some (maskDeriveType x)) (2 ^ size - 1) :=
  oneArgDeriveType_sound h fun x hx u hu => by
    obtain rfl := Option.some.inj hu
    exact mem_maskDeriveType hx

theorem logandc2DeriveType_sound {int mask : IntegerType} (hm : m ∈ int) (hn : n ∈ mask) :
    ∃ t, logandc2DeriveType int mask false = some t ∧ t.Mem (logand m (lognot n)) := by
  have hderives : Derives (logandc2DeriveType int mask false) (logand m (lognot n)) :=
    derives_logand ⟨int, mem_singleton_self _, hm⟩ ⟨_, mem_singleton_self _,
      mem_lognotDeriveTypeAux hn⟩
  obtain ⟨t, ht⟩ : ∃ t, logandc2DeriveType int mask false = some t := ⟨_, rfl⟩
  exact ⟨t, ht, hderives t ht⟩

theorem derives_logandc2 {s : Ctype} (hm : s.Mem m) (hn : t.Mem n) :
    Derives (twoArgDeriveType s t logandc2DeriveType false) (logand m (lognot n)) :=
  twoArgDeriveType_sound hm hn (by simp) fun _ _ => logandc2DeriveType_sound

/-- The size and the position of a byte, and their sum where it is a variable, have the types. -/
structure ByteMem (size posn : Ctype) (a : Option Ctype) (s p : ℕ) : Prop where
  size_mem : size.Mem s
  posn_mem : posn.Mem p
  sum_mem : ∀ t ∈ a, t.Mem (s + p : ℕ)

section Byte

variable {size posn num int newbyte : Ctype} {a : Option Ctype} {s p : ℕ} {v i : ℤ}

theorem ldb_eq (s p : ℕ) (n : ℤ) : ldb s p n = logand (ash n (-p)) (2 ^ s - 1) :=
  (logand_mask _ s).symm

theorem ldb_neg_one (s : ℕ) : ldb s 0 (-1) = 2 ^ s - 1 := by
  rw [ldb_zero, ← logand_mask, logand, neg_one_land]

theorem derives_ldbComputed {sameLeaf : Bool} (hb : ByteMem size posn a s p) (hn : num.Mem n)
    (hsame : sameLeaf = true → n = p) :
    Derives (ldbComputed size posn num sameLeaf) (ldb s p n) := by
  have hshifted : Derives (twoArgDeriveType num posn
      (fun num posn _ => some (ashDeriveTypeAux num (negateDeriveTypeAux posn)))
        sameLeaf) (ash n (-p)) :=
    twoArgDeriveType_sound hn hb.posn_mem hsame fun x y hx hy =>
      ⟨_, rfl, mem_ashDeriveTypeAux hx (mem_negateDeriveTypeAux hy)⟩
  rw [ldb_eq]
  exact hshifted.bind fun shifted hshifted => (derives_mask hb.size_mem).bind fun mask hmask =>
    derives_logand hshifted hmask

theorem derives_dpbComputed (hb : ByteMem size posn a s p) (hv : newbyte.Mem v) (hi : int.Mem i) :
    Derives (dpbComputed newbyte size posn int) (Integer.dpb v s p i) := by
  have hdpb : Integer.dpb v s p i =
      logior (logand i (lognot (ash (2 ^ s - 1) p))) (ash (logand (2 ^ s - 1) v) p) := by
    unfold Integer.dpb
    dsimp only
    rw [ash_one_sub, logand, logand, logand, land_comm v]
  rw [hdpb]
  refine (derives_mask hb.size_mem).bind fun mask hmask => ?_
  refine (derives_ash hmask hb.posn_mem).bind fun maskShifted hshifted => ?_
  refine (derives_logandc2 hi hshifted).bind fun int' hint => ?_
  refine (derives_logand hmask hv).bind fun newMasked hmasked => ?_
  exact (derives_ash hmasked hb.posn_mem).bind fun new hnew => derives_logior hint hnew

theorem derives_depositField {sameLeaf : Bool} (hb : ByteMem size posn a s p) (hv : newbyte.Mem v)
    (hi : int.Mem i) (hsame : sameLeaf = true → s = p) :
    Derives (depositFieldDeriveType newbyte size posn int sameLeaf)
      (Integer.depositField v s p i) := by
  have hdeposit : Integer.depositField v s p i =
      logior (logand i (lognot (ash (2 ^ s - 1) p))) (logand (ash (2 ^ s - 1) p) v) := by
    unfold Integer.depositField
    rw [ldb_neg_one, logior, logior, lor_comm, show logand v _ = logand _ v from land_comm v _]
  rw [hdeposit]
  have hmask : Derives (twoArgDeriveType size posn (fun size posn _ =>
      some ((maskDeriveType size).flatMap fun m => ashDeriveTypeAux m posn)) sameLeaf)
        (ash (2 ^ s - 1) p) := by
    refine twoArgDeriveType_sound hb.size_mem hb.posn_mem (by simpa using hsame)
      fun x y hx hy => ⟨_, rfl, ?_⟩
    obtain ⟨m, hm, hmem⟩ := mem_maskDeriveType hx
    obtain ⟨t, ht, htmem⟩ := mem_ashDeriveTypeAux hmem hy
    exact ⟨t, mem_flatMap.2 ⟨m, hm, ht⟩, htmem⟩
  refine hmask.bind fun mask hmask => ?_
  refine (derives_logandc2 hi hmask).bind fun int' hint => ?_
  exact (derives_logand hmask hv).bind fun new hnew => derives_logior hint hnew

/-! ## Bytes of a size from a sum -/

theorem mem_specifierInteger_iff {low high : Option ℤ} :
    (specifierInteger low high).Mem n ↔ (∀ l ∈ low, l ≤ n) ∧ ∀ h ∈ high, n ≤ h := by
  refine ⟨?_, fun h => mem_specifierInteger h.1 h.2⟩
  rintro ⟨t, ht, hn⟩
  obtain ⟨hvalid, ht⟩ := dite_none_right_eq_some.1 (mem_toList.1 ht)
  obtain rfl := Option.some.inj ht
  exact hn

theorem merge_max_le_iff {x y : Option ℤ} : (∀ l ∈ Option.merge max x y, l ≤ n) ↔ (∀ l ∈ x, l ≤ n) ∧
    ∀ l ∈ y, l ≤ n := by
  cases x <;> cases y <;> simp

theorem le_merge_min_iff {x y : Option ℤ} : (∀ h ∈ Option.merge min x y, n ≤ h) ↔ (∀ h ∈ x, n ≤ h) ∧
    ∀ h ∈ y, n ≤ h := by
  cases x <;> cases y <;> simp

theorem mem_typeIntersection_iff {s : Ctype} {t : Option Ctype} : (typeIntersection s t).Mem n ↔
    s.Mem n ∧ Derives t n := by
  cases t with
  | none => simp [typeIntersection, Derives]
  | some t =>
    have hranges (x y : IntegerType) :
      (specifierInteger (Option.merge max x.low y.low) (Option.merge min x.high y.high)).Mem n ↔
        n ∈ x ∧ n ∈ y := by
      rw [mem_specifierInteger_iff, merge_max_le_iff, le_merge_min_iff]
      exact and_and_and_comm
    constructor
    · rintro ⟨r, hr, hn⟩
      obtain ⟨x, hx, hr⟩ := mem_flatMap.1 hr
      obtain ⟨y, hy, hr⟩ := mem_flatMap.1 hr
      have hboth := (hranges x y).1 ⟨r, hr, hn⟩
      refine ⟨⟨x, hx, hboth.1⟩, ?_⟩
      rintro _ ⟨⟩
      exact ⟨y, hy, hboth.2⟩
    · rintro ⟨⟨x, hx, hnx⟩, ht⟩
      obtain ⟨y, hy, hny⟩ := ht t rfl
      obtain ⟨r, hr, hn⟩ := (hranges x y).2 ⟨hnx, hny⟩
      exact ⟨r, mem_flatMap.2 ⟨x, hx, mem_flatMap.2 ⟨y, hy, hr⟩⟩, hn⟩

theorem mem_typeApproximateInterval {t : Ctype} {r : IntegerType} (hn : t.Mem n)
    (hr : typeApproximateInterval t = some r) : n ∈ r := by
  obtain ⟨u, hu, hnu⟩ := mem_weakenNumericUnion hn
  cases t with
  | nil => cases hr
  | cons x rest =>
    obtain rfl := Option.some.inj hr
    exact mem_singleton.1 hu ▸ hnu

/-- The size and the position together stay below the bound of the variable that they come from. -/
theorem le_of_relatedByteSpec {r : IntegerType} {high : ℤ} (hb : ByteMem size posn a s p)
    (hr : relatedByteSpec a = some r) (hh : r.high = some high) : ((s + p : ℕ) : ℤ) ≤ high := by
  obtain ⟨t, ht, hr⟩ := bind_eq_some_iff.1 hr
  obtain ⟨int, hint, hr⟩ := bind_eq_some_iff.1 hr
  split_ifs at hr
  obtain rfl := Option.some.inj hr
  exact le_high (mem_typeApproximateInterval (hb.sum_mem t ht) hint) hh

theorem derives_ldb {sameLeaf : Bool} (hb : ByteMem size posn a s p) (hn : num.Mem n)
    (hsame : sameLeaf = true → n = p) :
    Derives (ldbDeriveType size posn num sameLeaf a) (ldb s p n) := by
  have hcomputed := derives_ldbComputed hb hn hsame
  unfold ldbDeriveType
  split
  · rename_i high hhigh
    obtain ⟨r, hr, hh⟩ := bind_eq_some_iff.1 hhigh
    split_ifs
    · rintro _ ⟨⟩
      refine mem_typeIntersection_iff.2 ⟨mem_specifierInteger ?_ ?_, hcomputed⟩
      · rintro _ ⟨⟩
        exact emod_nonneg _ (by positivity)
      rintro _ ⟨⟩
      have hle := le_of_relatedByteSpec hb hr hh
      obtain ⟨A, rfl⟩ := eq_ofNat_of_zero_le ((natCast_nonneg _).trans hle)
      have hlt : ldb s p n < 2 ^ s := emod_lt_of_pos _ (by positivity)
      have hpow : (2 : ℤ) ^ s ≤ 2 ^ A := pow_le_pow_right₀ (by decide) (by omega)
      show _ ≤ ash 1 (A : ℤ) - 1
      rw [ash_one_sub]
      omega
    · exact hcomputed
  · exact hcomputed

theorem dpb_nonneg (hi : 0 ≤ i) (v : ℤ) (s p : ℕ) : 0 ≤ Integer.dpb v s p i := by
  rw [Integer.dpb_eq]
  have := emod_nonneg i (show (2 : ℤ) ^ p ≠ 0 by positivity)
  have := emod_nonneg v (show (2 : ℤ) ^ s ≠ 0 by positivity)
  positivity

/-- A deposit below a power of two does not move the integer across it. -/
theorem dpb_lt_iff {A : ℕ} (hA : s + p ≤ A) (v : ℤ) : Integer.dpb v s p i < 2 ^ A ↔ i < 2 ^ A := by
  have hquot : Integer.dpb v s p i / 2 ^ A = i / 2 ^ A := by
    refine eq_of_testBit_eq fun j => ?_
    rw [testBit_ediv, testBit_ediv, Integer.testBit_dpb, if_neg (by omega)]
  have hpos : (0 : ℤ) < 2 ^ A := by positivity
  rw [← one_mul ((2 : ℤ) ^ A), ← Int.ediv_lt_iff_lt_mul hpos, ← Int.ediv_lt_iff_lt_mul hpos, hquot]

theorem le_iff_lex {m x y : ℤ} (hm : 0 < m) : x ≤ y ↔ x / m < y / m ∨ x / m = y / m ∧
    x % m ≤ y % m := by
  have hx := mul_ediv_add_emod x m
  have hy := mul_ediv_add_emod y m
  constructor
  · intro h
    rcases (Int.ediv_le_ediv hm h).lt_or_eq with hlt | heq
    · exact .inl hlt
    · rw [heq] at hx
      exact .inr ⟨heq, by omega⟩
  · rintro (hlt | ⟨heq, hle⟩)
    · by_contra h
      exact absurd (Int.ediv_le_ediv hm (not_le.1 h).le) (not_le.2 hlt)
    · rw [heq] at hx
      omega

/-- With a new field `f` the integer is no more than `high`, read from the left: above the field, in
the field, below it. -/
def FieldFits (f : ℤ) (s p : ℕ) (i high : ℤ) : Prop :=
  i / 2 ^ (p + s) < high / 2 ^ (p + s) ∨ i / 2 ^ (p + s) = high / 2 ^ (p + s) ∧
    (f < ldb s p high ∨ f = ldb s p high ∧ i % 2 ^ p ≤ high % 2 ^ p)

theorem dpb_le_iff {high : ℤ} (v : ℤ) : Integer.dpb v s p i ≤ high ↔
    FieldFits (ldb s 0 v) s p i high := by
  have hp : (0 : ℤ) < 2 ^ p := by positivity
  have hs : (0 : ℤ) < 2 ^ s := by positivity
  have hhigh : high / 2 ^ p / 2 ^ s = high / 2 ^ (p + s) := by
    rw [ediv_ediv_of_nonneg hp.le, pow_add]
  obtain ⟨hlow, hfield, habove⟩ := Integer.dpb_parts v s p i
  unfold FieldFits
  rw [le_iff_lex hp, hlow, ldb_zero, ldb, ash_neg, ← hfield, ← habove, ← hhigh]
  have hle := @le_iff_lex (2 ^ s) (Integer.dpb v s p i / 2 ^ p) (high / 2 ^ p) hs
  have hge := @le_iff_lex (2 ^ s) (high / 2 ^ p) (Integer.dpb v s p i / 2 ^ p) hs
  generalize Integer.dpb v s p i / 2 ^ p / 2 ^ s = a at hle hge ⊢
  generalize Integer.dpb v s p i / 2 ^ p % 2 ^ s = b at hle hge ⊢
  generalize high / 2 ^ p / 2 ^ s = a' at hle hge ⊢
  generalize high / 2 ^ p % 2 ^ s = b' at hle hge ⊢
  generalize Integer.dpb v s p i / 2 ^ p = c at hle hge ⊢
  generalize high / 2 ^ p = c' at hle hge ⊢
  generalize i % 2 ^ p = d
  generalize high % 2 ^ p = d'
  omega

/-- Where `%dpb` uses the bounds of the integer and of `a`: the power of two of the latter can be
represented, and the integer is below it, or its bits with the new field are, from the left, no more
than those of its bound. -/
def DpbFits (size int : Ctype) (a : Option Ctype) (v : ℤ) (s p : ℕ) (i : ℤ) : Prop :=
  ∀ b ∈ dpbRelated size int a, ashOneLength b.2 ≤ maximumAshLength ∧
    (i < ash 1 b.2 ∨ FieldFits (ldb s 0 v) s p i b.1)

theorem derives_dpb_iff (hb : ByteMem size posn a s p) (hv : newbyte.Mem v) (hi : int.Mem i) :
    (∃ type, dpbDeriveType newbyte size posn int a = .ok type ∧
      Derives type (Integer.dpb v s p i)) ↔ DpbFits size int a v s p i := by
  have hcomputed := derives_dpbComputed hb hv hi
  unfold dpbDeriveType DpbFits
  rcases hrel : dpbRelated size int a with _ | ⟨intHigh, minuendHigh⟩
  · exact iff_of_true ⟨_, rfl, hcomputed⟩ fun b hb => nomatch hb
  obtain ⟨intInterval, hint, hrel⟩ := bind_eq_some_iff.1 hrel
  obtain ⟨low, hlow, hrel⟩ := bind_eq_some_iff.1 hrel
  obtain ⟨high, hhigh, hrel⟩ := bind_eq_some_iff.1 hrel
  split_ifs at hrel with hlow0
  obtain ⟨minuend, hminuend, hrel⟩ := bind_eq_some_iff.1 hrel
  obtain ⟨sizeInterval, -, hrel⟩ := bind_eq_some_iff.1 hrel
  obtain ⟨top, htop, hrel⟩ := bind_eq_some_iff.1 hrel
  obtain ⟨rfl, rfl⟩ := Prod.mk.inj (Option.some.inj hrel)
  have hi0 : 0 ≤ i := hlow0.trans (low_le (mem_typeApproximateInterval hi hint) hlow)
  have hle := le_of_relatedByteSpec hb hminuend htop
  obtain ⟨A, rfl⟩ := eq_ofNat_of_zero_le ((natCast_nonneg _).trans hle)
  have hA : s + p ≤ A := ofNat_le.1 hle
  have hash : ash 1 ((A : ℕ) : ℤ) = 2 ^ A := by rw [ash_ofNat, one_mul]
  simp only [mem_def, Option.some.injEq, forall_eq']
  unfold ashOne
  rw [hash]
  by_cases hlength : ashOneLength (A : ℤ) > maximumAshLength
  · rw [if_pos hlength]
    exact iff_of_false (fun ⟨_, h, _⟩ => nomatch h) fun h => absurd h.1 (not_le.2 hlength)
  rw [if_neg hlength, and_iff_right (not_lt.1 hlength), ← dpb_le_iff]
  have hmem : (∃ type,
    (.ok (some (typeIntersection (specifierInteger (some 0) (some (max high (2 ^ A - 1))))
      (dpbComputed newbyte size posn int))) : Except ShiftError (Option Ctype)) = .ok type ∧
      Derives type (Integer.dpb v s p i)) ↔ Integer.dpb v s p i ≤ max high (2 ^ A - 1) := by
    simp only [Except.ok.injEq, exists_eq_left', Derives, mem_def, Option.some.injEq, forall_eq',
      mem_typeIntersection_iff, mem_specifierInteger_iff]
    exact ⟨fun h => h.1.2, fun h => ⟨⟨dpb_nonneg hi0 v s p, h⟩, hcomputed⟩⟩
  refine hmem.trans ?_
  rw [le_max_iff]
  constructor
  · rintro (h | h)
    · exact .inr h
    · exact .inl ((dpb_lt_iff hA v).1 (by omega))
  · rintro (h | h)
    · have := (dpb_lt_iff hA v).2 h
      exact .inr (by omega)
    · exact .inl h

end Byte

/-! ## All of them -/

/-- Shifts, with no bound beyond the cutoff, lengths, counts, and fields as shifts and masks are in
their derived types; `%dpb` is given a type, and a deposit is in it, if and only if it fits. -/
theorem shift_derive_types_iff {newbyte size posn int : Ctype} {a : Option Ctype} {v : ℤ}
    {s p : ℕ} {i : ℤ}
    (hbyte : ByteMem size posn a s p) (hv : newbyte.Mem v) (hi : int.Mem i) (sameLeaf : Bool) :
    ((∃ type, dpbDeriveType newbyte size posn int a = .ok type ∧
      Derives type (Integer.dpb v s p i)) ↔ DpbFits size int a v s p i) ∧
    Derives (dpbComputed newbyte size posn int) (Integer.dpb v s p i) ∧
    ((sameLeaf = true → s = p) →
      Derives (depositFieldDeriveType newbyte size posn int sameLeaf)
        (Integer.depositField v s p i)) ∧
    ((sameLeaf = true → i = p) → Derives (ldbDeriveType size posn int sameLeaf a) (ldb s p i)) ∧
    (∀ (x : Ctype) (n : ℤ), x.Mem n →
      Derives (oneArgDeriveType x integerLengthDeriveType) (integerLength n) ∧
      Derives (oneArgDeriveType x logcountDeriveType) (logcount n)) ∧
    (∀ (nType shift : IntegerType) (n c : ℤ), n ∈ nType → c ∈ shift →
      (ashDeriveTypeAux nType shift).Mem (ash n c)) ∧
    (∀ nType shift : IntegerType, (∀ c ∈ shift.high, leftShiftDeriveTypeCutoff < c) →
      ((∀ h ∈ nType.high, 0 < h) → ∃ r ∈ ashDeriveTypeAux nType shift, r.high = none) ∧
      ((∀ l ∈ nType.low, l < 0) → ∃ r ∈ ashDeriveTypeAux nType shift, r.low = none)) :=
  ⟨derives_dpb_iff hbyte hv hi, derives_dpbComputed hbyte hv hi, derives_depositField hbyte hv hi,
    derives_ldb hbyte hi,
    fun _ _ hn => ⟨derives_integerLength hn, derives_logcount hn⟩,
      fun _ _ _ _ hn hc => mem_ashDeriveTypeAux hn hc,
    fun _ _ hs => ⟨fun hh => exists_unbounded_high hh hs, fun hl => exists_unbounded_low hl hs⟩⟩

theorem byteMem_two :
    ByteMem (specifierInteger (some 0) (some 2)) (specifierInteger (some 0) (some 2))
    (some (specifierInteger (some 2) (some 2))) 2 0 where
  size_mem := mem_specifierInteger (by simp) (by simp)
  posn_mem := mem_specifierInteger (by simp) (by simp)
  sum_mem := by
    rintro _ ⟨⟩
    exact mem_specifierInteger (by simp) (by simp)

/-- The deposit of 2 in 16 fits where the bound is 19. -/
theorem shift_derive_types_iff_small :
    ∃ type, dpbDeriveType (specifierInteger (some 0) (some 3)) (specifierInteger (some 0) (some 2))
      (specifierInteger (some 0) (some 2)) (specifierInteger (some 0) (some 19))
        (some (specifierInteger (some 2) (some 2))) =
        .ok type ∧ Derives type (Integer.dpb 2 2 0 16) :=
  (shift_derive_types_iff byteMem_two (mem_specifierInteger (by simp) (by simp))
    (mem_specifierInteger (by simp) (by simp)) false).1.2 (by unfold DpbFits FieldFits; decide)

/-- `(dpb 3 (byte count (- 2 count)) 16)` is 19, but the type of the integer ends at 16 and so does
that of the result. -/
theorem not_dpbDeriveType_sound :
    ¬∀ (newbyte size posn int : Ctype) (a : Option Ctype) (v : ℤ) (s p : ℕ) (i : ℤ),
    ByteMem size posn a s p → newbyte.Mem v → int.Mem i →
      ∃ type, dpbDeriveType newbyte size posn int a = .ok type ∧
        Derives type (Integer.dpb v s p i) := by
  intro hall
  have hv : (specifierInteger (some 0) (some 3)).Mem 3 := mem_specifierInteger (by simp) (by simp)
  have hi : (specifierInteger (some 0) (some 16)).Mem 16 := mem_specifierInteger (by simp) (by simp)
  have hfits := (derives_dpb_iff byteMem_two hv hi).1 (hall _ _ _ _ _ 3 2 0 16 byteMem_two hv hi)
  revert hfits
  unfold DpbFits FieldFits
  decide

end Sbcl.Compiler
