import Mathlib.Data.Nat.Factorization.Basic
import Sbcl.Lib.IntBits

/-!
# The integer functions of the language

* `ash`, `integerLength`, `ldb`, `dpb`, `truncate` and the bitwise functions under their names, on
  `ℤ`, where Mathlib has the bitwise operations in two's complement;
* `ash_ofNat`, `ash_neg` : a shift is a product or a floored quotient by a power of two;
* `integerLength_le_iff`, `fits_integerLength`, `testBit_of_integerLength_le` : what a length says;
* `logcount_lognot`, `logcount_split`, `logcount_le`, `logcount_pos` : how many bits are not the
  sign;
* `logand_neg_self`, `logand_pred_self` : the lowest one of an integer;
* `Integer.testBit_dpb`, `Integer.dpb_eq` : what a deposited field changes.
-/

namespace Sbcl

open Int (bit_val)
open IntBits (eq_of_testBit_eq lnot_eq testBit_ediv testBit_emod testBit_mul testBit_pow_sub_one
  testBit_zero)

def ash (i c : ℤ) : ℤ := i <<< c

def integerLength : ℤ → ℕ
  | .ofNat n => n.size
  | .negSucc n => n.size

/-- `logcount`: the bits that are not the sign. -/
def logcount (n : ℤ) : ℕ :=
  (List.range (integerLength n)).countP fun i => n.testBit i != decide (n < 0)

def lognot (a : ℤ) : ℤ := Int.lnot a

def logand (a b : ℤ) : ℤ := Int.land a b

def logior (a b : ℤ) : ℤ := Int.lor a b

def logxor (a b : ℤ) : ℤ := Int.xor a b

def lognor (a b : ℤ) : ℤ := lognot (logior a b)

def logtest (a b : ℤ) : Bool := decide (logand a b ≠ 0)

def logandc2 (a b : ℤ) : ℤ := Int.ldiff a b

/-- `(ldb (byte size position) n)`. -/
def ldb (size position : ℕ) (n : ℤ) : ℤ := ash n (-position) % 2 ^ size

/-- `(dpb newbyte (byte size position) n)`. -/
def Integer.dpb (newbyte : ℤ) (size position : ℕ) (n : ℤ) : ℤ :=
  let mask := ash 1 size - 1
  logior (logand n (lognot (ash mask position))) (ash (logand newbyte mask) position)

/-- The first value of `truncate`. -/
abbrev truncate (a b : ℤ) : ℤ := Int.tdiv a b

theorem ash_ofNat (i : ℤ) (n : ℕ) : ash i n = i * 2 ^ n := by
  rw [ash, Int.shiftLeft_eq_mul_pow]
  rfl

theorem ash_neg (i : ℤ) (n : ℕ) : ash i (-n) = i / 2 ^ n := by
  rw [ash, Int.shiftLeft_neg, show i >>> (n : ℤ) = i >>> n from Int.shiftRight_natCast_right i n,
    Int.shiftRight_eq_div_pow]
  rfl

theorem ash_neg_one (i : ℤ) : ash i (-1) = i / 2 := by
  have := ash_neg i 1
  simpa using this

theorem ash_two_pow (n : ℕ) {c : ℤ} (h : 0 ≤ n + c) : ash (2 ^ n) c = 2 ^ (n + c).toNat := by
  rcases Int.le_total 0 c with hc | hc
  · obtain ⟨k, rfl⟩ := Int.eq_ofNat_of_zero_le hc
    rw [ash_ofNat, ← pow_add, ← Nat.cast_add, Int.toNat_natCast]
  obtain ⟨k, hk⟩ := Int.eq_ofNat_of_zero_le (Int.neg_nonneg_of_nonpos hc)
  obtain rfl : c = -k := by omega
  have hkn : k ≤ n := by omega
  rw [ash_neg, show (n + -(k : ℤ)).toNat = n - k by omega]
  conv_lhs => rw [← Nat.sub_add_cancel hkn, pow_add]
  exact Int.mul_ediv_cancel _ (by positivity)

/-! ## Lengths -/

@[simp] theorem integerLength_natCast (n : ℕ) : integerLength n = n.size := rfl

variable {n : ℤ}

theorem integerLength_le_iff (h : 0 ≤ n) (k : ℕ) : integerLength n ≤ k ↔ n < 2 ^ k := by
  obtain ⟨m, rfl⟩ := Int.eq_ofNat_of_zero_le h
  rw [integerLength_natCast, Nat.size_le]
  exact_mod_cast Iff.rfl

theorem lt_integerLength_iff (h : 0 ≤ n) (k : ℕ) : k < integerLength n ↔ 2 ^ k ≤ n := by
  rw [← not_iff_not, not_lt, not_le, integerLength_le_iff h]

theorem lt_pow_integerLength (h : 0 ≤ n) : n < 2 ^ integerLength n :=
  (integerLength_le_iff h _).1 le_rfl

theorem fits_integerLength (n : ℤ) : IntBits.Fits (integerLength n) n := by
  cases n with
  | ofNat m =>
    have : (m : ℤ) < 2 ^ m.size := by exact_mod_cast Nat.lt_size_self m
    exact ⟨(neg_nonpos.2 (by positivity)).trans (Int.natCast_nonneg m), this⟩
  | negSucc m =>
    have : (m : ℤ) < 2 ^ m.size := by exact_mod_cast Nat.lt_size_self m
    refine ⟨?_, ?_⟩ <;> rw [show integerLength (Int.negSucc m) = m.size from rfl, Int.negSucc_eq]
      <;> omega

variable {k : ℕ}

theorem integerLength_le_of_fits (h : IntBits.Fits k n) : integerLength n ≤ k := by
  cases n with
  | ofNat m => exact (integerLength_le_iff (Int.natCast_nonneg m) k).2 h.2
  | negSucc m =>
    refine Nat.size_le.2 ?_
    have hlow := h.1
    rw [Int.negSucc_eq] at hlow
    have hlt : (m : ℤ) < 2 ^ k := by omega
    exact_mod_cast hlt

theorem testBit_of_integerLength_le {i : ℕ} (h : integerLength n ≤ i) :
    n.testBit i = decide (n < 0) := by
  cases n with
  | ofNat m =>
    have : m.testBit i = false := Nat.testBit_lt_two_pow (Nat.size_le.1 h)
    simpa [Int.testBit, IntBits.natCast_not_neg] using this
  | negSucc m =>
    have : m.testBit i = false := Nat.testBit_lt_two_pow (Nat.size_le.1 h)
    simpa [Int.testBit, Int.negSucc_lt_zero] using this

theorem testBit_of_integerLength_eq (h : integerLength n = k + 1) :
    n.testBit k = !decide (n < 0) := by
  have hnat {m : ℕ} (hm : m.size = k + 1) : m.testBit k = true := by
    refine Nat.testBit_of_two_pow_le_and_two_pow_add_one_gt (Nat.lt_size.1 (by omega)) ?_
    rw [← hm]
    exact Nat.lt_size_self m
  cases n with
  | ofNat m => simpa [Int.testBit, IntBits.natCast_not_neg] using hnat h
  | negSucc m => simpa [Int.testBit, Int.negSucc_lt_zero] using hnat h

theorem integerLength_pow_pred (k : ℕ) : integerLength (2 ^ k - 1) = k := by
  have hk : (0 : ℤ) < 2 ^ k := by positivity
  have h0 : (0 : ℤ) ≤ 2 ^ k - 1 := by omega
  refine le_antisymm ((integerLength_le_iff h0 k).2 (by omega)) ?_
  cases k with
  | zero => exact Nat.zero_le _
  | succ j =>
    refine (lt_integerLength_iff h0 j).2 ?_
    rw [pow_succ]
    omega

theorem integerLength_lognot (n : ℤ) : integerLength (lognot n) = integerLength n := by
  cases n <;> rfl

theorem lognot_neg_iff (n : ℤ) : lognot n < 0 ↔ 0 ≤ n := by
  rw [lognot, lnot_eq]
  omega

variable {m : ℤ}

theorem integerLength_mono (h : 0 ≤ m) (hmn : m ≤ n) : integerLength m ≤ integerLength n :=
  (integerLength_le_iff h _).2 (hmn.trans_lt (lt_pow_integerLength (h.trans hmn)))

theorem integerLength_anti (hmn : m ≤ n) (h : n < 0) : integerLength n ≤ integerLength m := by
  rw [← integerLength_lognot n, ← integerLength_lognot m]
  refine integerLength_mono ?_ ?_ <;> simp only [lognot, lnot_eq] <;> omega

theorem integerLength_mul_pow (hn : n ≠ 0) (k : ℕ) :
    integerLength (n * 2 ^ k) = integerLength n + k := by
  have hk : (0 : ℤ) < 2 ^ k := by positivity
  have hfits (i : ℕ) : IntBits.Fits (i + k) (n * 2 ^ k) ↔ IntBits.Fits i n := by
    rw [IntBits.fits_iff, IntBits.fits_iff, pow_add, Int.mul_ediv_mul_of_pos_left _ _ hk]
  refine le_antisymm (integerLength_le_of_fits ((hfits _).2 (fits_integerLength n))) ?_
  rcases Nat.lt_or_ge (integerLength (n * 2 ^ k)) k with hlt | hge
  · -- Nothing but zero is a multiple of the power below it.
    have hfits' := fits_integerLength (n * 2 ^ k)
    have hpow : (2 : ℤ) ^ (integerLength (n * 2 ^ k) + 1) ≤ 2 ^ k :=
      pow_le_pow_right₀ one_le_two hlt
    rw [pow_succ] at hpow
    have hlow : -1 < n := lt_of_mul_lt_mul_right (by linarith [hfits'.1]) hk.le
    have hhigh : n < 1 := lt_of_mul_lt_mul_right (by linarith [hfits'.2]) hk.le
    omega
  · obtain ⟨i, hi⟩ := Nat.exists_eq_add_of_le' hge
    have hfits' := fits_integerLength (n * 2 ^ k)
    rw [hi, hfits] at hfits'
    have := integerLength_le_of_fits hfits'
    omega

theorem lt_iff_of_integerLength_lt (h : integerLength m < integerLength n) : (m < n ↔ 0 ≤ n) ∧
    (n < m ↔ n < 0) := by
  rcases Int.lt_or_le n 0 with hn | hn
  · have hlt : n < m := not_le.1 fun hle => absurd (integerLength_anti hle hn) (not_le.2 h)
    omega
  · have hlt : m < n := not_le.1 fun hle => absurd (integerLength_mono hn hle) (not_le.2 h)
    omega

/-! ## Counts -/

theorem logcount_eq (h : integerLength n ≤ k) :
    logcount n = (List.range k).countP fun i => n.testBit i != decide (n < 0) := by
  obtain ⟨m, rfl⟩ := Nat.exists_eq_add_of_le h
  rw [List.range_add, List.countP_append, logcount, Nat.left_eq_add, List.countP_eq_zero]
  intro i hi
  obtain ⟨j, -, rfl⟩ := List.mem_map.1 hi
  rw [testBit_of_integerLength_le (Nat.le_add_right _ _)]
  simp

theorem logcount_lognot (n : ℤ) : logcount (lognot n) = logcount n := by
  rw [logcount, logcount, integerLength_lognot]
  refine List.countP_congr fun i _ => ?_
  have hsign : decide (lognot n < 0) = !decide (n < 0) := by
    rw [← decide_not]
    exact decide_eq_decide.2 ((lognot_neg_iff n).trans not_lt.symm)
  rw [hsign, lognot, Int.testBit_lnot, Bool.not_bne_not]

theorem logcount_le (h : integerLength n ≤ k) : logcount n ≤ k := by
  rw [logcount_eq h]
  exact List.countP_le_length.trans_eq List.length_range

/-- Of the integers with `k` bits, only one has them all on. -/
theorem logcount_lt (h0 : 0 ≤ n) (h : n < 2 ^ k - 1) : logcount n < k := by
  have hlen : integerLength n ≤ k := (integerLength_le_iff h0 k).2 (by omega)
  refine lt_of_le_of_ne (logcount_le hlen) fun heq => h.ne ?_
  have hall : ∀ i ∈ List.range k, (n.testBit i != decide (n < 0)) = true := by
    rw [← List.countP_eq_length, ← logcount_eq hlen, List.length_range, heq]
  refine eq_of_testBit_eq fun i => ?_
  rw [testBit_pow_sub_one]
  by_cases hi : i < k
  · simpa [hi, not_lt.2 h0] using hall i (List.mem_range.2 hi)
  · rw [testBit_of_integerLength_le (hlen.trans (not_lt.1 hi))]
    simp [hi, h0]

theorem logcount_pos (h : 0 < n) : 0 < logcount n := by
  refine Nat.pos_of_ne_zero fun heq => h.ne' ?_
  rw [logcount, List.countP_eq_zero] at heq
  refine eq_of_testBit_eq fun i => ?_
  rw [testBit_zero]
  by_cases hi : i < integerLength n
  · simpa [not_lt.2 h.le] using heq i (List.mem_range.2 hi)
  · simp [testBit_of_integerLength_le (not_lt.1 hi), h.le]

theorem logcount_split (h : 0 ≤ n) (k : ℕ) :
    logcount n = logcount (n / 2 ^ k) + logcount (n % 2 ^ k) := by
  have hk : (0 : ℤ) < 2 ^ k := by positivity
  have hq : 0 ≤ n / 2 ^ k := Int.ediv_nonneg h hk.le
  have hr : 0 ≤ n % 2 ^ k := Int.emod_nonneg n hk.ne'
  have hqlen : integerLength (n / 2 ^ k) ≤ integerLength n :=
    integerLength_mono hq (Int.ediv_le_self _ h)
  have hrlen : integerLength (n % 2 ^ k) ≤ k :=
    (integerLength_le_iff hr k).2 (Int.emod_lt_of_pos n hk)
  rw [logcount_eq (Nat.le_add_left (integerLength n) k), logcount_eq hqlen,
    logcount_eq hrlen, List.range_add, List.countP_append, Nat.add_comm, List.countP_map]
  congr 1 <;> refine List.countP_congr fun i hi => ?_
  · simp only [Function.comp_apply, testBit_ediv, not_lt.2 h, not_lt.2 hq, Nat.add_comm i k]
  · simp only [testBit_emod, not_lt.2 h, not_lt.2 hr, List.mem_range.1 hi]
    simp

/-! ## Masks -/

theorem logand_bit (a b : Bool) (m n : ℤ) :
    logand (Int.bit a m) (Int.bit b n) = Int.bit (a && b) (logand m n) := Int.land_bit a m b n

theorem logand_self (a : ℤ) : logand a a = a := eq_of_testBit_eq fun i => by simp [logand]

theorem logand_lognot (a : ℤ) : logand a (-a - 1) = 0 := by
  rw [← lnot_eq]
  exact eq_of_testBit_eq fun i => by simp [logand, testBit_zero]

theorem logand_neg_self (k : ℕ) (r : ℤ) :
    logand (2 ^ k * (2 * r + 1)) (-(2 ^ k * (2 * r + 1))) = 2 ^ k := by
  induction k with
  | zero =>
    have h1 : (2 ^ 0 * (2 * r + 1) : ℤ) = Int.bit true r := by rw [bit_val]; simp
    have h2 : -(2 ^ 0 * (2 * r + 1) : ℤ) = Int.bit true (-r - 1) := by rw [bit_val]; simp; ring
    rw [h2, h1, logand_bit, logand_lognot, bit_val]
    rfl
  | succ k ih =>
    have h1 : (2 ^ (k + 1) * (2 * r + 1) : ℤ) = Int.bit false (2 ^ k * (2 * r + 1)) := by
      rw [bit_val, pow_succ]; simp; ring
    have h2 : -(2 ^ (k + 1) * (2 * r + 1) : ℤ) = Int.bit false (-(2 ^ k * (2 * r + 1))) := by
      rw [bit_val, pow_succ]; simp; ring
    rw [h2, h1, logand_bit, ih, bit_val, pow_succ]
    simp [Int.mul_comm]

theorem logand_pred_self (k : ℕ) (r : ℤ) :
    logand (2 ^ k * (2 * r + 1)) (2 ^ k * (2 * r + 1) - 1) = 2 ^ k * (2 * r) := by
  induction k with
  | zero =>
    have h1 : (2 ^ 0 * (2 * r + 1) : ℤ) = Int.bit true r := by rw [bit_val]; simp
    have h2 : (2 ^ 0 * (2 * r + 1) - 1 : ℤ) = Int.bit false r := by rw [bit_val]; simp
    rw [h2, h1, logand_bit, logand_self, bit_val]
    simp
  | succ k ih =>
    have h1 : (2 ^ (k + 1) * (2 * r + 1) : ℤ) = Int.bit false (2 ^ k * (2 * r + 1)) := by
      rw [bit_val, pow_succ]; simp; ring
    have h2 : (2 ^ (k + 1) * (2 * r + 1) - 1 : ℤ) = Int.bit true (2 ^ k * (2 * r + 1) - 1) := by
      rw [bit_val, pow_succ]; simp; ring
    rw [h2, h1, logand_bit, ih, bit_val, pow_succ]
    simp [Int.mul_comm, Int.mul_left_comm]

theorem exists_two_pow_mul_odd {y : ℤ} (h : 0 < y) : ∃ (k : ℕ) (r : ℤ), 0 ≤ r ∧
    y = 2 ^ k * (2 * r + 1) := by
  obtain ⟨n, rfl⟩ := Int.eq_ofNat_of_zero_le h.le
  obtain ⟨k, m, ⟨r, rfl⟩, hn⟩ := Nat.exists_eq_two_pow_mul_odd (show n ≠ 0 by omega)
  exact ⟨k, r, Int.natCast_nonneg r, by rw [hn]; push_cast; rfl⟩

theorem ne_two_pow {y : ℤ} (j : ℕ) (hlow : 2 ^ j < y) (hhigh : y < 2 ^ (j + 1))
    (k : ℕ) : y ≠ 2 ^ k := by
  rintro rfl
  have h1 := (pow_lt_pow_iff_right₀ (by decide)).1 hlow
  have h2 := (pow_lt_pow_iff_right₀ (by decide)).1 hhigh
  omega

theorem logandc2_mask (x : ℤ) (k : ℕ) : logandc2 x (2 ^ k - 1) = x / 2 ^ k * 2 ^ k := by
  refine eq_of_testBit_eq fun i => ?_
  rw [logandc2, Int.testBit_ldiff, testBit_pow_sub_one, testBit_mul, testBit_ediv]
  by_cases hi : i < k
  · simp [hi]
  · simp [hi, Nat.not_lt.1 hi]

theorem logand_mask (x : ℤ) (k : ℕ) : logand x (2 ^ k - 1) = x % 2 ^ k := by
  refine eq_of_testBit_eq fun i => ?_
  rw [logand, Int.testBit_land, testBit_pow_sub_one, testBit_emod, Bool.and_comm]

/-- A deposit changes the bits of its field only. -/
theorem Integer.testBit_dpb (newbyte : ℤ) (size position : ℕ) (n : ℤ) (i : ℕ) :
    (Integer.dpb newbyte size position n).testBit i =
      if position ≤ i ∧ i < position + size then newbyte.testBit (i - position)
        else n.testBit i := by
  unfold dpb logior lognot logand
  dsimp only
  rw [ash_ofNat 1, one_mul, ash_ofNat, ash_ofNat, Int.testBit_lor, Int.testBit_land,
    Int.testBit_lnot, testBit_mul, testBit_mul, Int.testBit_land, testBit_pow_sub_one]
  by_cases hlow : position ≤ i
  · by_cases hhigh : i < position + size
    · simp [hlow, hhigh, show i - position < size by omega]
    · simp [hlow, hhigh, show ¬i - position < size by omega]
  · simp [hlow]

/-- What a deposit leaves below its field, puts in it and leaves above it. -/
theorem Integer.dpb_parts (newbyte : ℤ) (size position : ℕ) (n : ℤ) :
    dpb newbyte size position n % 2 ^ position = n % 2 ^ position ∧
      dpb newbyte size position n / 2 ^ position % 2 ^ size = newbyte % 2 ^ size ∧
      dpb newbyte size position n / 2 ^ position / 2 ^ size = n / 2 ^ (position + size) := by
  refine ⟨?_, ?_, ?_⟩
  · refine eq_of_testBit_eq fun i => ?_
    rw [testBit_emod, testBit_emod, testBit_dpb]
    by_cases hi : i < position
    · rw [if_neg (by omega)]
    · simp [hi]
  · refine eq_of_testBit_eq fun i => ?_
    rw [testBit_emod, testBit_emod, testBit_ediv, testBit_dpb]
    by_cases hi : i < size
    · rw [if_pos (by omega), Nat.add_sub_cancel]
    · simp [hi]
  · rw [Int.ediv_ediv_of_nonneg (by positivity), ← pow_add]
    refine eq_of_testBit_eq fun i => ?_
    rw [testBit_ediv, testBit_ediv, testBit_dpb, if_neg (by omega)]

theorem Integer.dpb_eq (newbyte : ℤ) (size position : ℕ) (n : ℤ) :
    dpb newbyte size position n =
      n % 2 ^ position + 2 ^ position *
        (newbyte % 2 ^ size + 2 ^ size * (n / 2 ^ (position + size))) := by
  obtain ⟨hlow, hfield, hhigh⟩ := dpb_parts newbyte size position n
  rw [← hlow, ← hfield, ← hhigh, Int.emod_add_mul_ediv, Int.emod_add_mul_ediv]

end Sbcl
