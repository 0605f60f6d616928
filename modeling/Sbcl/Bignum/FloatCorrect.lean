import Sbcl.Bignum.Float
import Sbcl.Bignum.LogicCorrect
import Sbcl.Printer.FlonumCorrect

/-!
# A bignum is rounded to the nearest float

* `bignumBufferIntegerLength_eq`, `bignumLowerBitsZeroP_iff`, `lastBignumPart_eq` : the length of a
  bignum, its lower and its upper bits;
* `bignumNegateLastTwo_eq` : the last two digits of the magnitude of a negative bignum;
* `roundBits_spec` : the bits of the nearest float, from one bit more than the significand and
  whether the others are zero;
* `bignumToFloat_rounds` : the float of a bignum.
-/

namespace Sbcl.SbBignum

open Limbs Function Printer BinaryFloat
open IntBits (eq_of_testBit_eq testBit_ediv testBit_natCast testBit_zero)
open Nat (div_eq_of_lt lt_size mod_eq_of_lt mul_succ size_le size_pos succ_mul two_pow_pos)

variable {a : Bignum}
variable {zero : Bool} {last1 last2 : Digit} {k s x : ℕ} {shifted : ℤ}

/-! ## Length, lower bits and upper bits -/

theorem bignumBufferIntegerLength_eq (ha : Minimal a) :
    bignumBufferIntegerLength a.ref a.length = integerLength a.toInt := by
  refine le_antisymm ?_ (integerLength_le_of_fits (fits_bignumBufferIntegerLength ha.length_pos))
  obtain ⟨n, hn⟩ := Nat.exists_eq_succ_of_ne_zero ha.length_pos.ne'
  have hval : a.toInt = val a.ref n + (a.ref n).toInt * 2 ^ (digitSize * n) := by
    rw [Bignum.toInt, hn]
    exact sval_succ a.ref n
  have hlt : (val a.ref n : ℤ) < 2 ^ (digitSize * n) := by exact_mod_cast val_lt a.ref n
  have hpos : (0 : ℤ) < 2 ^ (digitSize * n) := by positivity
  -- A number of one digit less would be one without the last digit.
  have hlong : digitSize * n ≤ integerLength a.toInt := by
    by_contra hshort
    have hn0 : 0 < n := Nat.pos_of_ne_zero fun h => hshort (by simp [h])
    refine ha.minimal n hn0 (by omega) ((fits_iff digitSize_pos hn0).2 ?_)
    exact (fits_integerLength a.toInt).mono (by omega)
  unfold bignumBufferIntegerLength
  rw [hn, Nat.succ_sub_one, Nat.mul_comm n]
  by_contra hshort
  obtain ⟨j, hj⟩ := Nat.exists_eq_add_of_le hlong
  obtain ⟨hlow, hhigh⟩ := fits_integerLength a.toInt
  rw [hj, pow_add, hval] at hlow hhigh
  have hfits : IntBits.Fits j (a.ref n).toInt := by
    constructor
    · have h : -2 ^ j * (2 : ℤ) ^ (digitSize * n) <
          ((a.ref n).toInt + 1) * 2 ^ (digitSize * n) := by linarith
      exact Int.le_of_lt_add_one (lt_of_mul_lt_mul_right h hpos.le)
    · have h : (a.ref n).toInt * 2 ^ (digitSize * n) < 2 ^ j * (2 : ℤ) ^ (digitSize * n) := by
        linarith
      exact lt_of_mul_lt_mul_right h hpos.le
  have := integerLength_le_of_fits hfits
  omega

theorem word_window (a : Bignum) (k : ℕ) : ∃ c : ℤ, a.toInt / 2 ^ (digitSize * k) =
    (extDigit a k).toNat + (extDigit a (k + 1)).toNat * 2 ^ digitSize + c *
      2 ^ (2 * digitSize) := by
  obtain ⟨m, hm⟩ := Nat.exists_eq_add_of_le (Nat.le_max_right a.length (k + 2))
  have hval := val_ext_modEq a.ref (Nat.le_max_left a.length (k + 2))
  obtain ⟨c, hc⟩ := hval.symm.dvd
  have hsplit : (val (extDigit a) (max a.length (k + 2)) : ℤ) =
    val (extDigit a) k + ((extDigit a k).toNat +
      (extDigit a (k + 1)).toNat * 2 ^ digitSize) * 2 ^ (digitSize * k) +
      val (fun i => extDigit a (k + 2 + i)) m * 2 ^ (2 * digitSize) * 2 ^ (digitSize * k) := by
    rw [hm, val_add, val_succ, val_succ]
    push_cast
    rw [Nat.mul_add, Nat.mul_add, pow_add, pow_add, Nat.mul_one, Nat.mul_comm 2]
    ring
  have hmodulus : (2 : ℤ) ^ (digitSize * max a.length (k + 2)) =
      2 ^ (digitSize * m) * 2 ^ (2 * digitSize) * 2 ^ (digitSize * k) := by
    rw [← pow_add, ← pow_add, hm]
    congr 1
    ring
  have hlt : (val (extDigit a) k : ℤ) < 2 ^ (digitSize * k) := by
    exact_mod_cast val_lt (extDigit a) k
  have hpos : (0 : ℤ) < 2 ^ (digitSize * k) := by positivity
  refine ⟨val (fun i => extDigit a (k + 2 + i)) m - 2 ^ (digitSize * m) * c, ?_⟩
  have hint : a.toInt =
    val (extDigit a) k + ((extDigit a k).toNat + (extDigit a (k + 1)).toNat * 2 ^ digitSize +
      (val (fun i => extDigit a (k + 2 + i)) m - 2 ^ (digitSize * m) * c) * 2 ^ (2 * digitSize)) *
      2 ^ (digitSize * k) := by
    rw [hmodulus] at hc
    rw [Bignum.toInt]
    linear_combination hsplit - hc
  rw [hint, Int.add_mul_ediv_right _ _ hpos.ne', Int.ediv_eq_zero_of_lt (Int.natCast_nonneg _) hlt,
    zero_add]

theorem bmod_eq {y u c : ℤ} {s : ℕ} (h : y = u + c * 2 ^ (s + 1)) (hlow : -2 ^ s ≤ u)
    (hhigh : u < 2 ^ s) : y.bmod (2 ^ (s + 1)) = u := by
  have hcast : ((2 ^ (s + 1) : ℕ) : ℤ) = 2 ^ (s + 1) := by push_cast; rfl
  rw [h, ← hcast, Int.add_mul_bmod_self_right]
  exact Int.bmod_eq_of_le_mul_two (by rw [hcast, pow_succ]; linarith)
    (by rw [hcast, pow_succ]; linarith)

theorem logior_words (one next : Digit) {b : ℕ} (hb : b < digitSize) :
    logior (ash next.toNat (digitSize - b : ℕ)) (ash one.toNat (-b)) =
      next.toNat * 2 ^ (digitSize - b) + one.toNat / 2 ^ b := by
  have hlt : one.toNat / 2 ^ b < 2 ^ (digitSize - b) := by
    refine Nat.div_lt_of_lt_mul ?_
    rw [← pow_add, Nat.add_sub_of_le hb.le]
    exact one.isLt
  have h := Nat.two_pow_add_eq_or_of_lt hlt next.toNat
  rw [ash_ofNat, ash_neg]
  rw [Nat.mul_comm] at h
  exact_mod_cast congrArg Nat.cast h.symm

theorem lastBignumPart_eq (a : Bignum) {left position : ℕ} (hword : position / digitSize < a.length)
    (hnext : left < position % digitSize → position / digitSize + 1 < a.length) :
    ∃ s, min (digitSize - left) (nPositiveFixnumBits + 1) ≤ s + 1 ∧
      lastBignumPart left position a = (a.toInt / 2 ^ position).bmod (2 ^ (s + 1)) := by
  obtain ⟨c, hc⟩ := word_window a (position / digitSize)
  have hbit := Nat.mod_lt position digitSize_pos
  have hplace : a.toInt / 2 ^ position = a.toInt / 2 ^ (digitSize * (position / digitSize)) /
      2 ^ (position % digitSize) := by
    rw [Int.ediv_ediv_of_nonneg (by positivity), ← pow_add, Nat.div_add_mod]
  rw [extDigit_of_lt hword] at hc
  unfold lastBignumPart
  dsimp only
  set one := a.ref (position / digitSize) with hone
  set next := extDigit a (position / digitSize + 1) with hnextDef
  generalize hb : position % digitSize = b at *
  have hpos : (0 : ℤ) < 2 ^ b := by positivity
  obtain ⟨t, ht⟩ := Nat.exists_eq_add_of_lt hbit
  split_ifs with hleft
  · have hsplit : (2 : ℤ) ^ digitSize = 2 ^ (t + 1) * 2 ^ b := by
      rw [← pow_add, ht]
      congr 1
      ring
    refine ⟨t, by omega, ?_⟩
    have hlow := one.le_toInt
    have hhigh := one.toInt_lt
    have hhalf : (2 : ℤ) ^ (digitSize - 1) = 2 ^ t * 2 ^ b := by
      rw [← pow_add, ht]
      congr 1
      omega
    rw [hhalf] at hlow hhigh
    obtain ⟨d, hd⟩ : ∃ d : ℤ, (one.toNat : ℤ) = one.toInt + d * 2 ^ digitSize := by
      rw [BitVec.toInt_eq_toNat_cond]
      split
      · exact ⟨0, by ring⟩
      · exact ⟨1, by push_cast; ring⟩
    rw [eq_comm, ash_neg]
    refine bmod_eq (c := d + next.toNat + c * 2 ^ digitSize) ?_ ?_ ?_
    · have hsum : (one.toNat : ℤ) + next.toNat * 2 ^ digitSize + c * 2 ^ (2 * digitSize) =
          one.toInt + (d + next.toNat + c * 2 ^ digitSize) * 2 ^ (t + 1) * 2 ^ b := by
        rw [hd, mul_assoc _ ((2 : ℤ) ^ (t + 1)), ← hsplit, two_mul, pow_add]
        ring
      rw [hplace, hc, hsum, Int.add_mul_ediv_right _ _ hpos.ne']
    · rw [Int.le_ediv_iff_mul_le hpos]
      linarith
    · exact Int.ediv_lt_of_lt_mul hpos (by linarith)
  · rw [extDigit_of_lt (hnext (not_le.1 hleft))] at hnextDef
    rw [← hnextDef]
    refine ⟨nPositiveFixnumBits, by omega, ?_⟩
    have hor := logior_words one next hbit
    have hdigit : (2 : ℤ) ^ digitSize = 2 ^ (digitSize - b) * 2 ^ b := by
      rw [← pow_add, Nat.sub_add_cancel hbit.le]
    have hfixnum : (2 : ℤ) ^ digitSize = 2 * 2 ^ (nPositiveFixnumBits + 1) := by decide
    have hsum : (one.toNat : ℤ) + next.toNat * 2 ^ digitSize + c * 2 ^ (2 * digitSize) =
        one.toNat + (next.toNat * 2 ^ (digitSize - b) + c * 2 ^ (digitSize - b) * 2 *
          2 ^ (nPositiveFixnumBits + 1)) * 2 ^ b := by
      rw [two_mul, pow_add]
      linear_combination (next.toNat + c * 2 * 2 ^ (nPositiveFixnumBits + 1)) * hdigit + c *
        2 ^ digitSize * hfixnum
    have hcast : ((2 ^ (nPositiveFixnumBits + 1) : ℕ) : ℤ) = 2 ^ (nPositiveFixnumBits + 1) := by
      push_cast; rfl
    rw [maskSignedField, hor, hplace, hc, hsum, Int.add_mul_ediv_right _ _ hpos.ne',
      ← add_assoc, ← hcast, Int.add_mul_bmod_self_right, add_comm]

theorem bignumLowerBitsZeroP_iff (a : Bignum) {n : ℕ} (hn : n / digitSize < a.length) :
    bignumLowerBitsZeroP a n a.length = true ↔ (2 : ℤ) ^ n ∣ a.toInt := by
  have hmod := Nat.mod_lt n digitSize_pos
  have hdivision := Nat.div_add_mod n digitSize
  set d := n / digitSize with hd
  set p := n % digitSize with hp
  have hmask : logand (ash 1 p - 1) (a.ref d).toNat = ((a.ref d).toNat % 2 ^ p : ℕ) := by
    have hone : ash 1 p - 1 = (2 ^ p - 1 : ℕ) := by
      rw [ash_ofNat, one_mul, Nat.cast_sub Nat.one_le_two_pow]
      rfl
    rw [hone, show logand ((2 ^ p - 1 : ℕ) : ℤ) (a.ref d).toNat =
      ((2 ^ p - 1 &&& (a.ref d).toNat : ℕ) : ℤ) from rfl,
      Nat.and_comm, Nat.and_two_pow_sub_one_eq_mod]
  -- The digits below, and the lower part of the next one, make up the remainder.
  have hdvd : (2 : ℤ) ^ n ∣ a.toInt ↔ 2 ^ n ∣ val a.ref (d + 1) := by
    have hval := sval_modEq a.ref a.length
    obtain ⟨m, hm⟩ := Nat.exists_eq_add_of_le (show d + 1 ≤ a.length from hn)
    have hpow : (2 : ℤ) ^ n ∣ 2 ^ (digitSize * (d + 1)) :=
      pow_dvd_pow 2 (by rw [Nat.mul_add]; omega)
    have hlonger : (val a.ref (d + 1) : ℤ) ≡ a.toInt [ZMOD 2 ^ (digitSize * (d + 1))] := by
      have hsplit : (val a.ref a.length : ℤ) =
          val a.ref (d + 1) + val (fun i => a.ref (d + 1 + i)) m * 2 ^ (digitSize * (d + 1)) := by
        rw [hm, val_add]
        rfl
      have hbound : (2 : ℤ) ^ (digitSize * (d + 1)) ∣ 2 ^ (digitSize * a.length) :=
        pow_dvd_pow 2 (Nat.mul_le_mul_left _ hn)
      refine Int.ModEq.trans ?_ (hval.of_dvd hbound)
      rw [hsplit]
      exact Int.modEq_iff_dvd.2 ⟨_, by rw [add_sub_cancel_left, mul_comm]⟩
    have hremainder : (val a.ref (d + 1) : ℤ) % 2 ^ n = a.toInt % 2 ^ n := hlonger.of_dvd hpow
    rw [Int.dvd_iff_emod_eq_zero, ← hremainder, ← Int.dvd_iff_emod_eq_zero]
    exact_mod_cast Iff.rfl
  have hparts : 2 ^ n ∣ val a.ref (d + 1) ↔ val a.ref d = 0 ∧ (a.ref d).toNat % 2 ^ p = 0 := by
    have hlt := val_lt a.ref d
    rw [val_succ, ← hdivision, pow_add, Nat.dvd_iff_mod_eq_zero, Nat.mod_mul,
      Nat.add_mul_mod_self_right, mod_eq_of_lt hlt,
      Nat.add_mul_div_right _ _ (two_pow_pos _), div_eq_of_lt hlt, Nat.zero_add,
        Nat.add_eq_zero_iff, Nat.mul_eq_zero]
    have := (two_pow_pos (digitSize * d)).ne'
    tauto
  rw [hdvd, hparts, val_eq_zero_iff]
  unfold bignumLowerBitsZeroP
  rw [if_pos hn, Bool.and_eq_true, List.all_eq_true, decide_eq_true_eq, hmask]
  simp only [List.mem_range, beq_iff_eq]
  exact and_congr_right fun _ => by exact_mod_cast Iff.rfl

theorem logtest_one (n : ℤ) : logtest n 1 = n.testBit 0 := by
  have hbit (i : ℕ) : (logand n 1).testBit i = (n.testBit i && decide (i < 1)) := by
    rw [logand, Int.testBit_land, ← IntBits.testBit_pow_sub_one 1 i]
    rfl
  cases h : n.testBit 0 with
  | true =>
    refine decide_eq_true fun h0 => ?_
    have := hbit 0
    rw [h0, h, testBit_zero] at this
    exact absurd this (by decide)
  | false =>
    refine decide_eq_false (not_not.2 (eq_of_testBit_eq fun i => ?_))
    rw [hbit, testBit_zero]
    rcases Nat.eq_zero_or_pos i with rfl | hpos
    · rw [h]
      rfl
    · simp [show ¬i < 1 by omega]

theorem logtest_natCast_one (n : ℕ) : logtest (n : ℤ) 1 = true ↔ n % 2 = 1 := by
  rw [logtest_one, testBit_natCast, Nat.testBit_zero, decide_eq_true_eq]

/-! ## Rounding -/

/-- The last place of the significand and the half of it are the last two bits of the part; the bits
below decide a tie. -/
theorem round_up_iff {signif : ℕ} (hbit : logtest shifted 1 = true ↔ x / 2 ^ s % 2 = 1)
    (hzero : zero = true ↔ 2 ^ s ∣ x) (hsignif : signif % 2 = x / 2 ^ (s + 1) % 2) :
    (logtest shifted 1 && (logtest signif 1 || !zero)) = true ↔
      2 ^ s ≤ x % (2 * 2 ^ s) ∧ (Odd (x / (2 * 2 ^ s)) ∨ 2 ^ s < x % (2 * 2 ^ s) ∨
        (0 : ℚ) < 0) := by
  have hmod : x % (2 * 2 ^ s) = x % 2 ^ s + 2 ^ s * (x / 2 ^ s % 2) := by
    rw [Nat.mul_comm, Nat.mod_mul]
  have hzero' : (!zero) = true ↔ x % 2 ^ s ≠ 0 := by rw [Bool.not_eq_true', ← Bool.not_eq_true,
    hzero, Nat.dvd_iff_mod_eq_zero]
  rw [Bool.and_eq_true, Bool.or_eq_true, hbit, hzero', logtest_natCast_one, hsignif, pow_succ',
    Nat.odd_iff, hmod, or_iff_left (lt_irrefl (0 : ℚ))]
  rcases Nat.mod_two_eq_zero_or_one (x / 2 ^ s) with h | h
  · rw [h]
    simp only [Nat.mul_zero, Nat.add_zero, zero_ne_one, false_and, false_iff, not_and]
    omega
  rw [h, Nat.mul_one]
  have hle : 2 ^ s ≤ x % 2 ^ s + 2 ^ s := Nat.le_add_left _ _
  have hlt : 2 ^ s < x % 2 ^ s + 2 ^ s ↔ x % 2 ^ s ≠ 0 := by omega
  rw [hlt]
  simp [hle]

theorem exponentByte_snd (type : FloatType) : type.exponentByte.2 = type.digits - 1 := by
  cases type <;> rfl

theorem roundBits_spec (type : FloatType) (hlength : x.size = s + type.digits + 1)
    (hbit : logtest shifted 1 = true ↔ x / 2 ^ s % 2 = 1) (hzero : zero = true ↔ 2 ^ s ∣ x) :
    ∃ r, RoundsTo type.format x r ∧
      roundBits type x.size shifted (x / 2 ^ (s + 1) % 2 ^ (type.digits - 1) : ℕ) zero =
        if r < type.infinity then some (r : ℤ) else none := by
  have hdigits := format_digits type
  have hone := type.format.one_lt
  have hminimum : type.format.minExponent = 1 - (type.bias : ℤ) - type.digits := by
    cases type <;> rfl
  obtain ⟨j, hj⟩ : ∃ j : ℕ, type.bias + x.size = j + 1 := ⟨type.bias + x.size - 1, by omega⟩
  have hexponent : type.format.minExponent + j = (s + 1 : ℕ) := by
    push_cast
    omega
  have hlow : 2 ^ (s + type.digits) ≤ x := lt_size.1 (by omega)
  have hhigh : x < 2 ^ (s + type.digits + 1) := hlength ▸ Nat.lt_size_self x
  set Q := x / (2 * 2 ^ s) with hQ
  have hQ' : x / 2 ^ (s + 1) = Q := by rw [pow_succ', hQ]
  have hpow : 2 ^ type.digits = 2 * 2 ^ (type.digits - 1) := by
    rw [← pow_succ', Nat.sub_add_cancel (by omega)]
  have hQlow : 2 ^ (type.digits - 1) ≤ Q := by
    rw [← hQ', Nat.le_div_iff_mul_le (two_pow_pos _), ← pow_add]
    refine le_trans (le_of_eq ?_) hlow
    congr 1
    omega
  have hQhigh : Q < 2 ^ type.digits := by
    rw [← hQ', Nat.div_lt_iff_lt_mul (two_pow_pos _), ← pow_add]
    refine lt_of_lt_of_eq hhigh ?_
    congr 1
    omega
  have hround : RoundsEven ((x : ℚ) / 2 ^ (type.format.minExponent + j))
      (if 2 ^ s ≤ x % (2 * 2 ^ s) ∧ (Odd Q ∨ 2 ^ s < x % (2 * 2 ^ s) ∨ (0 : ℚ) < 0) then
        Q + 1 else Q) := by
    refine roundsEven_quotient (two_pow_pos _) (Nat.mod_lt _ (by positivity)) le_rfl one_pos ?_
    have hx : ((Q * (2 * 2 ^ s) + x % (2 * 2 ^ s) : ℕ) : ℚ) = x := by
      exact_mod_cast Nat.div_add_mod' x (2 * 2 ^ s)
    have hunit : (2 : ℚ) ^ (s + 1) = 2 * (2 ^ s : ℕ) := by
      push_cast
      ring
    rw [hexponent, zpow_natCast, hunit, div_mul_cancel₀ _ (by positivity), ← hx]
    push_cast
    ring
  have hlower :
      j = 0 ∨ (2 : ℚ) ^ (type.format.digits - 1) * 2 ^ (type.format.minExponent + j) ≤ x := by
    right
    rw [hexponent, zpow_natCast, ← pow_add, hdigits, show type.digits - 1 + (s + 1) =
      s + type.digits by omega]
    exact_mod_cast hlow
  have hupper : (x : ℚ) < 2 ^ type.format.digits * 2 ^ (type.format.minExponent + j) := by
    rw [hexponent, zpow_natCast, ← pow_add, hdigits,
      show type.digits + (s + 1) = s + type.digits + 1 by omega]
    exact_mod_cast hhigh
  obtain ⟨hq, -, hrounds⟩ := roundsTo_of_roundsEven hlower hupper hround
  have hremainder : Q % 2 ^ (type.digits - 1) = Q - 2 ^ (type.digits - 1) := by
    rw [Nat.mod_eq_sub_mod hQlow, mod_eq_of_lt (by omega)]
  have hparity : (x / 2 ^ (s + 1) % 2 ^ (type.digits - 1)) % 2 = x / 2 ^ (s + 1) % 2 :=
    Nat.mod_mod_of_dvd _ (dvd_pow_self 2 (by omega))
  have hup := round_up_iff hbit hzero hparity
  rw [← hQ] at hup
  rw [hdigits, hpow] at hq
  rw [hdigits] at hrounds
  refine ⟨_, hrounds, ?_⟩
  have hbits : ash ((j + 1 : ℕ) : ℤ) (type.digits - 1 : ℕ) + (if logtest shifted 1 &&
        (logtest (x / 2 ^ (s + 1) % 2 ^ (type.digits - 1) : ℕ) 1 || !zero) then
      ((x / 2 ^ (s + 1) % 2 ^ (type.digits - 1) : ℕ) : ℤ) +
        1 else (x / 2 ^ (s + 1) % 2 ^ (type.digits - 1) : ℕ)) =
      ((if 2 ^ s ≤ x % (2 * 2 ^ s) ∧ (Odd Q ∨ 2 ^ s < x % (2 * 2 ^ s) ∨ (0 : ℚ) < 0) then Q +
        1 else Q) + j * 2 ^ (type.digits - 1) : ℕ) := by
    have hsum : (j + 1) * 2 ^ (type.digits - 1) + (Q - 2 ^ (type.digits - 1)) =
        Q + j * 2 ^ (type.digits - 1) := by
      rw [succ_mul]
      omega
    rw [hQ', hremainder, ash_ofNat]
    rw [hQ', hremainder] at hup
    by_cases h : (logtest shifted 1 && (logtest (Q - 2 ^ (type.digits - 1) : ℕ) 1 || !zero)) = true
    · rw [if_pos h, if_pos (hup.1 h), Nat.add_right_comm, ← hsum]
      push_cast
      ring
    · rw [if_neg h, if_neg (mt hup.2 h), ← hsum]
      push_cast
      ring
  unfold roundBits FloatType.infinity
  dsimp only
  rw [hj, exponentByte_snd, hbits]
  set r := (if 2 ^ s ≤ x % (2 * 2 ^ s) ∧ (Odd Q ∨ 2 ^ s < x % (2 * 2 ^ s) ∨ (0 : ℚ) < 0) then Q +
    1 else Q) with hr
  have hQr : Q ≤ r := by
    rw [hr]
    split
    · exact Nat.le_succ Q
    · exact le_rfl
  rcases Nat.lt_or_ge type.normalExponentMax (j + 1) with hmax | hmax
  · have hle := Nat.mul_le_mul_right (2 ^ (type.digits - 1)) (show type.normalExponentMax + 1 ≤
      j + 1 from hmax)
    rw [succ_mul j] at hle
    rw [if_pos hmax, if_neg (by omega)]
  have hle := Nat.mul_le_mul_right (2 ^ (type.digits - 1)) (show j + 2 ≤
    type.normalExponentMax + 1 by omega)
  rw [Nat.add_mul] at hle
  rw [if_neg (not_lt.2 hmax)]
  by_cases hinfinity :
    r + j * 2 ^ (type.digits - 1) = (type.normalExponentMax + 1) * 2 ^ (type.digits - 1)
  · rw [if_pos (by exact_mod_cast hinfinity), if_neg (by omega)]
  · rw [if_neg (by exact_mod_cast hinfinity), if_pos (by omega)]

/-! ## Negative bignums -/

theorem bignumNegateLastTwo_loop (x res : Buffer) (n : ℕ) :
    bignumNegateLastTwo x n = (bignumNegateLoop x n res).2 := by
  have h : (dotimes n ((0 : Digit), (0 : Digit), true) fun i t =>
      (t.2.1, (addWithCarry (lognotDigit (x i)) 0 t.2.2).1,
        (addWithCarry (lognotDigit (x i)) 0 t.2.2).2)) =
      (fun t : Buffer × Bool × Digit × Digit => (t.2.2.1, t.2.2.2, t.2.1))
        (dotimes n (res, true, (0 : Digit), (0 : Digit)) fun i t =>
          (update t.1 i (addWithCarry (lognotDigit (x i)) 0 t.2.1).1,
            (addWithCarry (lognotDigit (x i)) 0 t.2.1).2, t.2.2.2,
            (addWithCarry (lognotDigit (x i)) 0 t.2.1).1)) := by
    induction n with
    | zero => rfl
    | succ n ih =>
      rw [dotimes, ih]
      rfl
  exact congrArg (fun t : Digit × Digit × Bool => (t.1, t.2.1)) h

theorem bignumNegateLastTwo_eq (ha : a.toInt < 0) (hk : a.length = k + 2)
    (h : bignumNegateLastTwo a.ref a.length = (last1, last2)) :
    last1.toNat + last2.toNat * 2 ^ digitSize = a.toInt.natAbs / 2 ^ (digitSize * k) := by
  rw [bignumNegateLastTwo_loop a.ref 0] at h
  generalize hr : bignumNegateLoop a.ref a.length 0 = r at h
  obtain ⟨r, l1, l2⟩ := r
  obtain ⟨rfl, rfl⟩ := Prod.mk.inj h
  obtain ⟨hval, hlast2, hlast1⟩ := bignumNegateLoop_spec a.ref 0 _ hr
  have hlast2 := hlast2 (by omega)
  rw [if_pos (by omega)] at hlast1
  have hmagnitude : val r a.length = a.toInt.natAbs := by
    have hmod : (val r a.length : ℤ) ≡ a.toInt.natAbs [ZMOD 2 ^ (digitSize * a.length)] := by
      rw [Int.ofNat_natAbs_of_nonpos ha.le]
      exact hval.trans (sval_modEq a.ref a.length).neg
    have hfits := (fits_toInt (a := a) (by omega)).1
    have hlt : (a.toInt.natAbs : ℤ) < 2 ^ (digitSize * a.length) := by
      rw [Int.ofNat_natAbs_of_nonpos ha.le]
      linarith
    have hlt' := val_lt r a.length
    have heq := Nat.ModEq.eq_of_lt_of_lt (Int.natCast_modEq_iff.1 (by exact_mod_cast hmod)) hlt'
      (by exact_mod_cast hlt)
    exact heq
  have hsplit := val_succ r (k + 1)
  rw [val_succ r k] at hsplit
  rw [hk, show k + 2 = k + 1 + 1 from rfl, hsplit] at hmagnitude
  rw [hk] at hlast1 hlast2
  rw [← hmagnitude, hlast1, hlast2, mul_succ, pow_add]
  have hlt := val_lt r k
  have hsum : val r k + (r k).toNat * 2 ^ (digitSize * k) + (r (k + 1)).toNat *
    (2 ^ (digitSize * k) * 2 ^ digitSize) =
      val r k + ((r k).toNat + (r (k + 1)).toNat * 2 ^ digitSize) * 2 ^ (digitSize * k) := by ring
  rw [hsum, Nat.add_mul_div_right _ _ (two_pow_pos _), div_eq_of_lt hlt, Nat.zero_add]
  rfl

theorem size_magnitude (ha : Minimal a) (hneg : a.toInt < 0) (hk : a.length = k + 2)
    (h : last1.toNat + last2.toNat * 2 ^ digitSize = a.toInt.natAbs / 2 ^ (digitSize * k)) :
    a.toInt.natAbs.size = last2.toNat.size + (a.length - 1) * digitSize := by
  set m := a.toInt.natAbs with hm
  have hquotient : m / 2 ^ (digitSize * (k + 1)) = last2.toNat := by
    rw [mul_succ, pow_add, ← Nat.div_div_eq_div_mul, ← h, Nat.add_mul_div_right _ _ (two_pow_pos _),
      div_eq_of_lt last1.isLt, Nat.zero_add]
  have hlower : 2 ^ (digitSize * (k + 1) - 1) ≤ m := by
    by_contra hlt
    refine ha.minimal (k + 1) (by omega) (by omega) ((fits_iff digitSize_pos (by omega)).2 ?_)
    have hm' : a.toInt = -(m : ℤ) := by rw [hm, Int.ofNat_natAbs_of_nonpos hneg.le, neg_neg]
    rw [IntBits.Fits, hm']
    have h0 : (0 : ℤ) ≤ m := Int.natCast_nonneg m
    exact ⟨by linarith, by linarith⟩
  have hpos := two_pow_pos (digitSize * (k + 1))
  rw [hk, show k + 2 - 1 = k + 1 from rfl, Nat.mul_comm (k + 1)]
  refine le_antisymm (size_le.2 ?_) ?_
  · rw [pow_add]
    have hlt := Nat.lt_size_self last2.toNat
    exact (Nat.div_lt_iff_lt_mul hpos).1 (hquotient ▸ hlt)
  rcases Nat.eq_zero_or_pos last2.toNat with h0 | hlast
  · rw [h0, Nat.size_zero, Nat.zero_add]
    have hlt := lt_size.2 hlower
    omega
  have hsize := size_pos.2 hlast
  have hfirst : 2 ^ (last2.toNat.size - 1) ≤ last2.toNat := lt_size.1 (by omega)
  have hle : 2 ^ (last2.toNat.size - 1 + digitSize * (k + 1)) ≤ m := by
    rw [pow_add]
    exact (Nat.le_div_iff_mul_le hpos).1 (hquotient ▸ hfirst)
  have hlt := lt_size.2 hle
  omega

theorem negative_part {m k s D : ℕ} (hD : D < digitSize)
    (h : last1.toNat + last2.toNat * 2 ^ digitSize = m / 2 ^ (digitSize * k))
    (hm : m < 2 ^ (s + D + 1)) (hs : s + D + 1 = last2.toNat.size + (k + 1) * digitSize) :
    (if last2 = 0 then ash last1.toNat (-(s % digitSize : ℕ))
      else if s % digitSize ≤ digitSize - (D + 1) then ash last2.toNat (-(s % digitSize : ℕ))
      else logand (2 ^ digitSize - 1)
        (logior (ash last2.toNat (digitSize - s % digitSize : ℕ))
          (ash last1.toNat (-(s % digitSize : ℕ))))) =
      ((m / 2 ^ s : ℕ) : ℤ) := by
  have hsize : last2.toNat.size ≤ digitSize := size_le.2 last2.isLt
  rw [succ_mul, Nat.mul_comm k] at hs
  obtain ⟨t, ht⟩ : ∃ t, s = digitSize * k + t := ⟨last2.toNat.size + digitSize - (D + 1), by omega⟩
  have hmod : s % digitSize = t % digitSize := by rw [ht, Nat.mul_add_mod]
  have hdiv : m / 2 ^ s = (last1.toNat + last2.toNat * 2 ^ digitSize) / 2 ^ t := by
    rw [ht, pow_add, ← Nat.div_div_eq_div_mul, h]
  have ht' : t + D + 1 = last2.toNat.size + digitSize := by
    omega
  rw [hdiv, hmod]
  split_ifs with hzero hword
  · have h0 : last2.toNat = 0 := by rw [hzero]; rfl
    rw [h0, Nat.size_zero] at ht'
    rw [h0, Nat.zero_mul, Nat.add_zero, mod_eq_of_lt (by omega), ash_neg]
    push_cast
    rfl
  · -- The place is in the last digit.
    have hlong : digitSize ≤ t := by
      by_contra hshort
      rw [mod_eq_of_lt (by omega)] at hword
      have hpos : 0 < last2.toNat.size := by
        refine size_pos.2 (Nat.pos_of_ne_zero fun h0 => hzero ?_)
        exact BitVec.eq_of_toNat_eq h0
      omega
    obtain ⟨u, hu⟩ := Nat.exists_eq_add_of_le hlong
    rw [hu, Nat.add_mod_left, mod_eq_of_lt (by omega), pow_add, ← Nat.div_div_eq_div_mul,
      Nat.add_mul_div_right _ _ (two_pow_pos _), div_eq_of_lt last1.isLt, Nat.zero_add, ash_neg]
    rfl
  · have hshort : t < digitSize := by
      by_contra hlong
      obtain ⟨u, hu⟩ := Nat.exists_eq_add_of_le (not_lt.1 hlong)
      rw [hu, Nat.add_mod_left, mod_eq_of_lt (by omega)] at hword
      omega
    rw [mod_eq_of_lt hshort, logior_words _ _ hshort]
    have hsum : (last1.toNat + last2.toNat * 2 ^ digitSize) / 2 ^ t =
        last2.toNat * 2 ^ (digitSize - t) + last1.toNat / 2 ^ t := by
      rw [← Nat.sub_add_cancel hshort.le, pow_add, ← Nat.mul_assoc,
        Nat.add_mul_div_right _ _ (two_pow_pos _), Nat.add_comm]
      simp
    have hlt : (last1.toNat + last2.toNat * 2 ^ digitSize) / 2 ^ t < 2 ^ digitSize := by
      rw [← hdiv]
      refine (Nat.div_lt_iff_lt_mul (two_pow_pos s)).2 (hm.trans_le ?_)
      rw [← pow_add]
      exact Nat.pow_le_pow_right (by norm_num) (by omega)
    rw [hsum] at hlt ⊢
    have hmask : ((2 : ℤ) ^ digitSize - 1) = ((2 ^ digitSize - 1 : ℕ) : ℤ) := by decide
    have hcast : ((last2.toNat : ℤ) * 2 ^ (digitSize - t) + (last1.toNat : ℤ) / 2 ^ t) =
        ((last2.toNat * 2 ^ (digitSize - t) + last1.toNat / 2 ^ t : ℕ) : ℤ) := by
      rfl
    rw [hmask, hcast]
    generalize last2.toNat * 2 ^ (digitSize - t) + last1.toNat / 2 ^ t = w at *
    rw [show logand ((2 ^ digitSize - 1 : ℕ) : ℤ) w = ((2 ^ digitSize - 1 &&& w : ℕ) : ℤ) from rfl,
      Nat.and_comm, Nat.and_two_pow_sub_one_eq_mod, mod_eq_of_lt hlt]

/-! ## The float of a bignum -/

theorem testBit_bmod {y : ℤ} {s i : ℕ} (hi : i < s) : (y.bmod (2 ^ s)).testBit i = y.testBit i := by
  refine testBit_of_modEq ?_ hi
  have h : ((y.bmod (2 ^ s)) : ℤ) % ((2 ^ s : ℕ) : ℤ) = y % ((2 ^ s : ℕ) : ℤ) := Int.bmod_emod
  exact h

theorem ldb_bmod {x D s t : ℕ} (hs : D ≤ s) (hD : 0 < D) :
    ldb (D - 1) 1 (((x : ℤ) / 2 ^ t).bmod (2 ^ s)) = (x / 2 ^ (t + 1) % 2 ^ (D - 1) : ℕ) := by
  refine eq_of_testBit_eq fun i => ?_
  rw [testBit_ldb, testBit_natCast, Nat.testBit_mod_two_pow, Nat.testBit_div_two_pow]
  by_cases hi : i < D - 1
  · rw [testBit_bmod (by omega), testBit_ediv, testBit_natCast]
    congr 2
    omega
  · simp [hi]

theorem significandByte_eq (type : FloatType) : type.significandByte = (type.digits - 1, 0) := by
  cases type <;> rfl

theorem digits_lt (type : FloatType) : 1 < type.digits ∧ type.digits < 54 := by
  cases type <;> decide

theorem ofInt_bits (type : FloatType) {r : ℕ} (hr : r < type.infinity) :
    (ordinal type (BitVec.ofInt type.width r) = r ∧ (BitVec.ofInt type.width r).msb = false) ∧
      ordinal type (BitVec.ofInt type.width (logior (ash (-1) (type.width - 1 : ℕ)) r)) = r ∧
        (BitVec.ofInt type.width (logior (ash (-1) (type.width - 1 : ℕ)) r)).msb = true := by
  have hlt : r < 2 ^ (type.width - 1) := hr.trans_le (by cases type <;> decide)
  have hpos : 0 < type.width := by cases type <;> decide
  have hwidth : 2 ^ type.width = 2 * 2 ^ (type.width - 1) := by
    rw [← pow_succ', Nat.sub_add_cancel hpos]
  have hor : logior (ash (-1) (type.width - 1 : ℕ)) r = -2 ^ (type.width - 1) + (r : ℤ) := by
    have hland : Int.land (-2 ^ (type.width - 1)) (r : ℤ) = 0 := by
      refine eq_of_testBit_eq fun i => ?_
      rw [Int.testBit_land, IntBits.testBit_neg_pow, testBit_natCast, testBit_zero]
      by_cases hi : type.width - 1 ≤ i
      · rw [Nat.testBit_lt_two_pow (hlt.trans_le (Nat.pow_le_pow_right (by norm_num) hi)),
          Bool.and_false]
      · rw [decide_eq_false hi, Bool.false_and]
    have hsum := IntBits.land_add_lor (-2 ^ (type.width - 1)) (r : ℤ)
    rw [hland, zero_add] at hsum
    rw [ash_ofNat, neg_one_mul, logior, hsum]
  have hplus : (BitVec.ofInt type.width (r : ℤ)).toNat = r := by
    rw [BitVec.ofInt_natCast, BitVec.toNat_ofNat, mod_eq_of_lt (by omega)]
  have hminus : (BitVec.ofInt type.width (-2 ^ (type.width - 1) + (r : ℤ))).toNat =
      2 ^ (type.width - 1) + r := by
    have hmod : (-2 ^ (type.width - 1) + (r : ℤ)) % ((2 ^ type.width : ℕ) : ℤ) =
        (2 ^ (type.width - 1) + r : ℕ) := by
      have hcast : ((2 ^ type.width : ℕ) : ℤ) = 2 * 2 ^ (type.width - 1) := by exact_mod_cast hwidth
      rw [show -2 ^ (type.width - 1) + (r : ℤ) = ((2 ^ (type.width - 1) + r : ℕ) : ℤ) +
        ((2 ^ type.width : ℕ) : ℤ) * -1 by
        rw [hcast]
        push_cast
        ring, Int.add_mul_emod_self_left]
      exact Int.emod_eq_of_lt (Int.natCast_nonneg _)
        (by exact_mod_cast (by omega : 2 ^ (type.width - 1) + r < 2 ^ type.width))
    rw [BitVec.toNat_ofInt, hmod, Int.toNat_natCast]
  have hmsb (b : FloatBits type) : b.msb = decide (2 ^ (type.width - 1) ≤ b.toNat) :=
    BitVec.msb_eq_decide b
  unfold ordinal
  rw [hor, hmsb, hmsb, hplus, hminus, mod_eq_of_lt hlt, Nat.add_mod_left, mod_eq_of_lt hlt]
  exact ⟨⟨rfl, decide_eq_false (by omega)⟩, rfl, decide_eq_true (by omega)⟩

theorem digitSize_le_size (ha : Minimal a) (hlength : 2 ≤ a.length) :
    digitSize ≤ a.toInt.natAbs.size := by
  have hlarge : 2 ^ (digitSize - 1) ≤ a.toInt.natAbs := by
    by_contra hlt
    refine ha.minimal 1 one_pos (by omega) ((fits_iff digitSize_pos one_pos).2 ?_)
    rw [Nat.mul_one]
    have hlt' : (a.toInt.natAbs : ℤ) < 2 ^ (digitSize - 1) := by exact_mod_cast not_le.1 hlt
    exact ⟨by omega, by omega⟩
  exact lt_size.2 hlarge

/-- The float of a bignum is the nearest one to it, and the even one of two; an overflow is
signalled if and only if that one would be above the largest. -/
theorem bignumToFloat_rounds (type : FloatType) (bignum : NormalBignum)
    (hlength : 2 ≤ bignum.length) : ∃ r, RoundsTo type.format (bignum.toInt.natAbs : ℚ) r ∧
      match bignumToFloat type bignum.toBignum with
      | .overflow sign => type.infinity ≤ r ∧ sign = bignum.toInt.sign
      | .float bits => r < type.infinity ∧ ordinal type bits = r ∧
      bits.msb = decide (bignum.toInt < 0) := by
  obtain ⟨a, ha⟩ := bignum
  have hminimal := ha.toMinimal
  dsimp only at hlength ⊢
  obtain ⟨hdigits, hdigits'⟩ := digits_lt type
  have hfits := fits_toInt (a := a) (by omega)
  have hword : digitSize = 64 := rfl
  have hlong := digitSize_le_size hminimal hlength
  unfold bignumToFloat
  dsimp only
  rw [significandByte_eq]
  by_cases hplus : bignum0OrPlusp a.ref a.length = true
  · have h0 : 0 ≤ a.toInt := (bignum0OrPlusp_iff a).1 hplus
    obtain ⟨x, hx⟩ := Int.eq_ofNat_of_zero_le h0
    have habs : a.toInt.natAbs = x := by rw [hx]; rfl
    rw [habs] at hlong ⊢
    obtain ⟨s, hs⟩ : ∃ s, x.size = s + type.digits + 1 := ⟨x.size - type.digits - 1, by omega⟩
    have hbuffer : bignumBufferIntegerLength a.ref a.length = x.size := by
      rw [bignumBufferIntegerLength_eq hminimal, hx]
      rfl
    have hsize : x.size < digitSize * a.length := by
      have hlt := integerLength_le_of_fits ((fits_iff digitSize_pos (by omega)).1 hfits)
      rw [hx] at hlt
      have hlt : x.size ≤ digitSize * a.length - 1 := hlt
      have := Nat.mul_le_mul_left digitSize (show 1 ≤ a.length by omega)
      omega
    have hshift : x.size - type.digits - 1 = s := by omega
    have hplace := Nat.div_add_mod s digitSize
    have hin : s / digitSize < a.length :=
      (Nat.div_lt_iff_lt_mul digitSize_pos).2 (by rw [Nat.mul_comm]; omega)
    have hnext : digitSize - type.digits < s % digitSize → s / digitSize + 1 < a.length := by
      intro hleft
      have hlt : digitSize * (s / digitSize + 1) < digitSize * a.length := by
        rw [mul_succ]
        omega
      exact Nat.lt_of_mul_lt_mul_left hlt
    obtain ⟨t, ht, hpart⟩ := lastBignumPart_eq a hin hnext
    have hbits : type.digits ≤ t + 1 := by
      simp only [nPositiveFixnumBits] at ht
      omega
    have hbit : logtest (((x : ℤ) / 2 ^ s).bmod (2 ^ (t + 1))) 1 = true ↔ x / 2 ^ s % 2 = 1 := by
      rw [logtest_one, testBit_bmod (Nat.succ_pos t), testBit_ediv, testBit_natCast, Nat.zero_add,
        Nat.testBit_eq_decide_div_mod_eq, decide_eq_true_eq]
    have hzero : bignumLowerBitsZeroP a s a.length = true ↔ 2 ^ s ∣ x := by
      rw [bignumLowerBitsZeroP_iff a hin, hx]
      exact_mod_cast Iff.rfl
    obtain ⟨r, hrounds, hround⟩ := roundBits_spec type hs hbit hzero
    refine ⟨r, hrounds, ?_⟩
    rw [hbuffer, hshift, if_pos hplus, hpart, hx, ldb_bmod hbits (by omega), hround]
    by_cases hr : r < type.infinity
    · obtain ⟨hfloat, -⟩ := ofInt_bits type hr
      rw [if_pos hr]
      exact ⟨hr, hfloat.1, hfloat.2.trans (decide_eq_false (by omega)).symm⟩
    · rw [if_neg hr]
      have hpos : 0 < x := size_pos.1 (by omega)
      exact ⟨not_lt.1 hr, (Int.sign_eq_one_of_pos (by exact_mod_cast hpos)).symm⟩
  · have hneg : a.toInt < 0 := not_le.1 (mt (bignum0OrPlusp_iff a).2 hplus)
    obtain ⟨k, hk⟩ : ∃ k, a.length = k + 2 := ⟨a.length - 2, by omega⟩
    generalize hlast : bignumNegateLastTwo a.ref a.length = last
    obtain ⟨last1, last2⟩ := last
    have hwindow := bignumNegateLastTwo_eq hneg hk hlast
    have hsize := size_magnitude hminimal hneg hk hwindow
    have hdvd (n : ℕ) : (2 : ℤ) ^ n ∣ a.toInt ↔ 2 ^ n ∣ a.toInt.natAbs := by
      rw [← Int.natCast_dvd]
      push_cast
      exact Iff.rfl
    have hupper : a.toInt.natAbs.size ≤ digitSize * a.length := by
      have hpos : (0 : ℤ) < 2 ^ (digitSize * a.length) := by positivity
      have hlt : (a.toInt.natAbs : ℤ) < 2 ^ (digitSize * a.length) := by
        rw [Int.ofNat_natAbs_of_nonpos hneg.le]
        linarith [hfits.1]
      exact size_le.2 (by exact_mod_cast hlt)
    generalize a.toInt.natAbs = m at *
    obtain ⟨s, hs⟩ : ∃ s, m.size = s + type.digits + 1 := ⟨m.size - type.digits - 1, by omega⟩
    have hshift : last2.toNat.size + (a.length - 1) * digitSize - type.digits - 1 = s := by omega
    have hin : s / digitSize < a.length :=
      (Nat.div_lt_iff_lt_mul digitSize_pos).2 (by rw [Nat.mul_comm]; omega)
    have hpart := negative_part (D := type.digits) (by omega) hwindow (hs ▸ Nat.lt_size_self m) (by
      rw [← hs, hsize, hk]
      rfl)
    have hbit : logtest ((m / 2 ^ s : ℕ) : ℤ) 1 = true ↔ m / 2 ^ s % 2 = 1 := logtest_natCast_one _
    have hzero : bignumLowerBitsZeroP a s a.length = true ↔ 2 ^ s ∣ m :=
      (bignumLowerBitsZeroP_iff a hin).trans (hdvd s)
    have hsignif : ldb (type.digits - 1) 0 (ash ((m / 2 ^ s : ℕ) : ℤ) (-1)) =
        (m / 2 ^ (s + 1) % 2 ^ (type.digits - 1) : ℕ) := by
      refine eq_of_testBit_eq fun i => ?_
      rw [testBit_ldb, ash_neg_one, show ((m / 2 ^ s : ℕ) : ℤ) / 2 =
        ((m / 2 ^ s / 2 : ℕ) : ℤ) from rfl, testBit_natCast,
        testBit_natCast, Nat.testBit_mod_two_pow, Nat.zero_add, Nat.div_div_eq_div_mul, ← pow_succ]
    obtain ⟨r, hrounds, hround⟩ := roundBits_spec type hs hbit hzero
    refine ⟨r, hrounds, ?_⟩
    rw [if_neg hplus]
    dsimp only
    rw [integerLength_natCast, hshift, hpart, hsignif, ← hsize, hround]
    by_cases hr : r < type.infinity
    · obtain ⟨-, hfloat⟩ := ofInt_bits type hr
      rw [if_pos hr]
      exact ⟨hr, hfloat.1, hfloat.2.trans (decide_eq_true hneg).symm⟩
    · rw [if_neg hr]
      exact ⟨not_lt.1 hr, (Int.sign_eq_neg_one_of_neg hneg).symm⟩

theorem normalized_twoWords : (⟨2, fun _ => 1⟩ : Bignum).Normalized := by
  have hval : (⟨2, fun _ => 1⟩ : Bignum).toInt = 2 ^ 64 + 1 := by decide
  refine ⟨⟨by decide, fun n hn hlt => ?_⟩, ?_⟩
  · obtain rfl : n = 1 := by
      have hlt : n < 2 := hlt
      omega
    rw [hval]
    decide
  · rw [hval]
    unfold IsFixnum
    decide

theorem bignumToFloat_rounds_twoWords :
    ∃ r, RoundsTo FloatType.doubleFloat.format ((⟨2, fun _ => 1⟩ : Bignum).toInt.natAbs : ℚ) r ∧
      match bignumToFloat .doubleFloat ⟨2, fun _ => 1⟩ with
      | .overflow sign => FloatType.doubleFloat.infinity ≤ r ∧
      sign = (⟨2, fun _ => 1⟩ : Bignum).toInt.sign
      | .float bits => r < FloatType.doubleFloat.infinity ∧ ordinal .doubleFloat bits = r ∧
          bits.msb = decide ((⟨2, fun _ => 1⟩ : Bignum).toInt < 0) :=
  bignumToFloat_rounds .doubleFloat ⟨⟨2, fun _ => 1⟩, normalized_twoWords⟩ (by decide)

end Sbcl.SbBignum
