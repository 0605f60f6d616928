import Mathlib.RingTheory.Coprime.Lemmas
import Sbcl.Compiler.DivisibilityTest
import Sbcl.Compiler.SignedConstantDivCorrect
import Sbcl.Lib.ModularInverse

/-!
# Comparing a remainder with zero: correctness

* `mulinvLoop_modEq` : the invariant of Euclid's algorithm, down to the inverse;
* `rotateRightWord_le_iff` : a rotated word is small only if the bits rotated to the top are clear;
* `unsigned_remainder_test` : the test of a word, for every constant and every bound of the
  dividend;
* `signedRemainderEqZero_iff` : the test of a signed word is right but for one dividend of some odd
  divisors.
-/

namespace Sbcl.Compiler

open ModularInverse Option

variable {p z : ℕ} {d w x y : ℤ}

/-! ## The inverse -/

theorem mulinvLoop_modEq {M d x1 v1 x2 v2 : ℤ} (h1 : d * x1 ≡ v1 [ZMOD M])
    (h2 : d * x2 ≡ v2 [ZMOD M]) (hgcd : IsCoprime v1 v2)
    (hpos : 0 < v2) : d * mulinvLoop x1 v1 x2 v2 ≡ 1 [ZMOD M] := by
  induction x1, v1, x2, v2 using mulinvLoop.induct with
  | case1 x1 v1 x2 v2 hlt q ih =>
    have hmod : v1 - q * v2 = v1.fmod v2 := by rw [Int.fmod_def, mul_comm]
    have hcop : IsCoprime v2 (v1 - q * v2) := by
      rw [sub_eq_add_neg, ← neg_mul]
      exact hgcd.symm.add_mul_right_right _
    have hne : v1 - q * v2 ≠ 0 := by
      intro h
      rw [h, isCoprime_zero_right, Int.isUnit_iff] at hcop
      omega
    have hnonneg : 0 ≤ v1 - q * v2 := by
      rw [hmod]
      exact Int.fmod_nonneg_of_pos v1 (by omega)
    rw [mulinvLoop, if_pos hlt]
    refine ih h2 ?_ hcop (by omega)
    calc d * (x1 - q * x2) = d * x1 - q * (d * x2) := by ring
      _ ≡ v1 - q * v2 [ZMOD M] := h1.sub (h2.mul_left q)
  | case2 x1 v1 x2 v2 hle =>
    rw [mulinvLoop, if_neg hle]
    obtain rfl : v2 = 1 := by omega
    exact h2

theorem modEq_logand_mask (x : ℤ) (p : ℕ) : logand (2 ^ p - 1) x ≡ x [ZMOD 2 ^ p] := by
  rw [logand, IntBits.land_comm]
  exact (congrArg (· % (2 : ℤ) ^ p) (logand_mask x p)).trans (Int.emod_emod_of_dvd x dvd_rfl)

theorem mulinv_modEq (hodd : d % 2 = 1) (hd : 0 < d) (hfit : d ≤ 2 ^ p - 1) :
    d * mulinv d (2 ^ p - 1) ≡ 1 [ZMOD 2 ^ p] := by
  have hcop : IsCoprime d (2 ^ p) := by
    refine IsCoprime.pow_right ⟨1, -(d / 2), ?_⟩
    have := Int.emod_add_mul_ediv d 2
    linarith
  have hneg : logand (-d) (2 ^ p - 1) = 2 ^ p - d := by
    rw [logand_mask, ← Int.add_emod_right, neg_add_eq_sub]
    exact Int.emod_eq_of_lt (by omega) (by omega)
  have h1 : d * (2 ^ p - 1) ≡ 2 ^ p - d [ZMOD 2 ^ p] := by
    calc d * (2 ^ p - 1) = 2 ^ p - d + 2 ^ p * (d - 1) := by ring
      _ ≡ 2 ^ p - d [ZMOD 2 ^ p] := Int.modEq_add_fac_self ..
  have hgcd : IsCoprime (2 ^ p - d) d := by
    have := hcop.symm.add_mul_left_left (-1)
    rwa [mul_neg_one, ← sub_eq_add_neg] at this
  unfold mulinv
  rw [hneg]
  refine ((modEq_logand_mask _ p).mul_left d).trans ?_
  exact mulinvLoop_modEq h1 (by rw [mul_one]) hgcd hd

/-! ## Words -/

theorem logand_mostPositiveWord (n : ℤ) : logand mostPositiveWord n = n % 2 ^ 64 := by
  rw [logand, IntBits.land_comm]
  exact logand_mask n 64

theorem logand_wordProduct_add (x inv a : ℤ) : logand mostPositiveWord (wordProduct x inv + a) =
    (x * inv + a) % 2 ^ 64 := by
  unfold wordProduct
  rw [logand_mostPositiveWord, logand_mostPositiveWord, logand_mostPositiveWord]
  refine ((Int.mod_modEq _ _).trans ?_).add_right a
  exact (Int.mod_modEq x _).mul_right inv

theorem rotateRightWord_eq (hw : 0 ≤ w) (hw' : w < 2 ^ 64) (hz : z ≤ 64) :
    rotateRightWord w z = w / 2 ^ z + 2 ^ (64 - z) * (w % 2 ^ z) := by
  have hpow : (2 : ℤ) ^ 64 = 2 ^ (64 - z) * 2 ^ z := by rw [← pow_add, Nat.sub_add_cancel hz]
  have hlow : w / 2 ^ z < 2 ^ (64 - z) := by
    rw [Int.ediv_lt_iff_lt_mul (by positivity), ← hpow]
    exact hw'
  have hnonneg : 0 ≤ w / 2 ^ z := Int.ediv_nonneg hw (by positivity)
  have hhigh : w / 2 ^ z / 2 ^ (64 - z + z) = 0 := by
    refine Int.ediv_eq_zero_of_lt hnonneg (hlow.trans_le ?_)
    exact pow_le_pow_right₀ (by decide) (by omega)
  unfold rotateRightWord nWordBits
  rw [ash_neg, Integer.dpb_eq, Int.emod_eq_of_lt hnonneg hlow, hhigh, mul_zero, add_zero]

theorem rotateRightWord_le_iff {w b : ℤ} (hw : 0 ≤ w) (hw' : w < 2 ^ 64) (hz : z ≤ 64)
    (hb : b < 2 ^ (64 - z)) : rotateRightWord w z ≤ b ↔ ∃ h ≤ b, w = 2 ^ z * h := by
  rw [rotateRightWord_eq hw hw' hz]
  refine ⟨fun h => ⟨w / 2 ^ z, ?_⟩, ?_⟩
  · have hnonneg : 0 ≤ w / 2 ^ z := Int.ediv_nonneg hw (by positivity)
    have hmod : w % 2 ^ z = 0 := by
      by_contra hne
      have hpos : 1 ≤ w % 2 ^ z := by
        omega
      have hle : (2 : ℤ) ^ (64 - z) ≤ 2 ^ (64 - z) * (w % 2 ^ z) :=
        le_mul_of_one_le_right (by positivity) hpos
      omega
    rw [hmod, mul_zero, add_zero] at h
    exact ⟨h, (Int.mul_ediv_cancel_of_emod_eq_zero hmod).symm⟩
  · rintro ⟨h, hle, rfl⟩
    rw [Int.mul_ediv_cancel_left _ (by positivity), Int.mul_emod_right, mul_zero, add_zero]
    exact hle

theorem countTrailingZeros_eq {k : ℕ} {r : ℤ} (hlow : 0 < 2 ^ k * (2 * r + 1))
    (hhigh : 2 ^ k * (2 * r + 1) < (2 : ℤ) ^ 64) :
    countTrailingZeros (2 ^ k * (2 * r + 1)) = k := by
  have hle : (2 : ℤ) ^ k ≤ 2 ^ k * (2 * r + 1) := by
    refine le_mul_of_one_le_right (by positivity) ?_
    have := pos_of_mul_pos_right hlow (show (0 : ℤ) ≤ 2 ^ k by positivity)
    omega
  have hpow : (0 : ℤ) < 2 ^ k := by positivity
  have hldb {n : ℤ} (h0 : 0 ≤ n) (h1 : n < 2 ^ 64) : ldb nWordBits 0 n = n := by
    unfold ldb nWordBits
    rw [show ash n (-((0 : ℕ) : ℤ)) = n from (ash_neg n 0).trans (by simp)]
    exact Int.emod_eq_of_lt h0 h1
  unfold countTrailingZeros
  dsimp only
  rw [hldb hlow.le hhigh, logand_neg_self, hldb (by omega) (by omega), integerLength_pow_pred]

theorem rotate_test_iff {x inv odd A b : ℤ} (hinv : odd * inv ≡ 1 [ZMOD 2 ^ 64]) (hz : z ≤ 64)
    (hb : b < 2 ^ (64 - z)) : rotateRightWord ((x * inv + 2 ^ z * A) % 2 ^ 64) z ≤ b ↔
      ∃ k, -A ≤ k ∧ k ≤ b - A ∧ 2 ^ z * odd * k ≡ x [ZMOD 2 ^ 64] := by
  have hpow : (2 : ℤ) ^ 64 = 2 ^ (64 - z) * 2 ^ z := by rw [← pow_add, Nat.sub_add_cancel hz]
  have hres (k : ℤ) : 2 ^ z * odd * k ≡ x [ZMOD 2 ^ 64] ↔ 2 ^ z * k ≡ x * inv [ZMOD 2 ^ 64] := by
    rw [modEq_mul_inverse_iff hinv, show 2 ^ z * odd * k = odd * (2 ^ z * k) by ring]
  have hnonneg := Int.emod_nonneg (x * inv + 2 ^ z * A) (show (2 : ℤ) ^ 64 ≠ 0 by decide)
  rw [rotateRightWord_le_iff hnonneg (Int.emod_lt_of_pos _ (by decide)) hz hb]
  refine ⟨?_, ?_⟩
  · rintro ⟨h, hle, hw⟩
    have h0 : 0 ≤ h := by
      rw [hw] at hnonneg
      exact nonneg_of_mul_nonneg_right hnonneg (by positivity)
    refine ⟨h - A, by omega, by omega, (hres _).2 ?_⟩
    calc 2 ^ z * (h - A) = 2 ^ z * h - 2 ^ z * A := by ring
      _ ≡ x * inv + 2 ^ z * A - 2 ^ z * A [ZMOD 2 ^ 64] := by
        rw [← hw]
        exact (Int.mod_modEq _ _).sub_right _
      _ = x * inv := by ring
  · rintro ⟨k, hlow, hhigh, hk⟩
    refine ⟨k + A, by omega, ?_⟩
    have hlt : 2 ^ z * (k + A) < (2 : ℤ) ^ 64 := by
      rw [hpow, mul_comm]
      exact Int.mul_lt_mul_of_pos_right (by omega) (by positivity)
    have hge : 0 ≤ 2 ^ z * (k + A) := Int.mul_nonneg (by positivity) (by omega)
    rw [← (((hres k).1 hk).add_right (2 ^ z * A)).eq, ← mul_add]
    exact Int.emod_eq_of_lt hge hlt

/-! ## The test of a word -/

theorem even_divisor (hy : 0 < y) (hy' : y < 2 ^ 64) (heven : ¬y % 2 = 1)
    (hpow : ∀ k : ℕ, y ≠ 2 ^ k) :
    ∃ (z : ℕ) (odd : ℤ), 1 ≤ z ∧ z ≤ 64 ∧ odd % 2 = 1 ∧ 3 ≤ odd ∧ odd ≤ y ∧ y = 2 ^ z * odd ∧
      countTrailingZeros y = z ∧ ash y (-z) = odd := by
  obtain ⟨z, r, hr, rfl⟩ := exists_two_pow_mul_odd hy
  have hr0 : r ≠ 0 := by
    rintro rfl
    exact hpow z (by ring)
  have hz0 : z ≠ 0 := by
    rintro rfl
    omega
  have hone : (1 : ℤ) ≤ 2 ^ z := one_le_pow₀ (by decide)
  have hz : z < 64 := by
    refine (pow_lt_pow_iff_right₀ (a := (2 : ℤ)) (by decide)).1 (lt_of_le_of_lt ?_ hy')
    exact le_mul_of_one_le_right (by positivity) (by omega)
  refine ⟨z, 2 * r + 1, by omega, hz.le, by omega, by omega, ?_, rfl,
    countTrailingZeros_eq hy hy', ?_⟩
  · exact le_mul_of_one_le_left (by omega) hone
  · rw [ash_neg, Int.mul_ediv_cancel_left _ (by positivity)]

theorem ediv_lt_pow {M odd : ℤ} (hM : M < 2 ^ 64) (hz : z ≤ 64) (hodd : 0 < odd) :
    M / (2 ^ z * odd) < 2 ^ (64 - z) := by
  have hpow : (2 : ℤ) ^ 64 = 2 ^ (64 - z) * 2 ^ z := by rw [← pow_add, Nat.sub_add_cancel hz]
  rw [Int.ediv_lt_iff_lt_mul (by positivity), ← mul_assoc, ← hpow]
  exact hM.trans_le (le_mul_of_one_le_right (by decide) hodd)

theorem dvd_iff_exists_quotient {M y x : ℤ} (hy : 0 < y) (hx : 0 ≤ x) (hxM : x < M) :
    y ∣ x ↔ ∃ k, 0 ≤ k ∧ k ≤ (M - 1) / y ∧ y * k ≡ x [ZMOD M] := by
  refine dvd_iff_exists_window (fun k hk => ⟨?_, ?_⟩) fun k hlow hhigh => ?_
  · rw [hk] at hx
    exact nonneg_of_mul_nonneg_right hx hy
  · rw [Int.le_ediv_iff_mul_le hy, mul_comm, ← hk]
    omega
  · rw [Int.le_ediv_iff_mul_le hy, mul_comm] at hhigh
    have hprod : 0 ≤ y * k := Int.mul_nonneg hy.le hlow
    exact ⟨by omega, by omega⟩

theorem gt_eq_not_dvd {a b y x : ℤ} (h : a ≤ b ↔ y ∣ x) : decide (a > b) = !decide (y ∣ x) := by
  by_cases hdvd : y ∣ x
  · simp [hdvd, h.2 hdvd]
  · simpa [hdvd] using fun hle => hdvd (h.1 hle)

theorem trulyTheWord_logand (x : ℤ) (hp : p ≤ 64) :
    trulyThe 0 mostPositiveWord (logand x (2 ^ p - 1)) = some (x % 2 ^ p) := by
  rw [logand_mask]
  refine trulyThe_eq (Int.emod_nonneg _ (by positivity)) ?_
  have hle : (2 : ℤ) ^ p ≤ 2 ^ 64 := pow_le_pow_right₀ (by decide) hp
  unfold mostPositiveWord nWordBits
  omega

theorem unsignedRemainderTest_eq {high : Option ℤ} (plusp : Bool) (hy : IsWord y) (hy0 : 0 < y)
    (hpow : ∀ k : ℕ, y ≠ 2 ^ k)
    (hmax : IsWord (maxX high)) (hym : y ≤ maxX high) (hx : 0 ≤ x) (hxm : x ≤ maxX high) :
    unsignedRemainderTest y high plusp x =
      some (if plusp then !decide (y ∣ x) else decide (y ∣ x)) := by
  have hyw := (isWord_iff y).1 hy
  have hmaxw := (isWord_iff _).1 hmax
  have h3 : 3 ≤ y := by
    have h1 := hpow 0
    have h2 := hpow 1
    omega
  have hwrap {test : Bool} (h : test = !decide (y ∣ x)) :
      (if plusp then test else !test) = if plusp then !decide (y ∣ x) else decide (y ∣ x) := by
    rw [h, Bool.not_not]
  unfold unsignedRemainderTest
  rw [if_neg (logand_pred_ne_zero h3 hpow)]
  dsimp only
  split
  · rename_i hodd
    set p := integerLength (maxX high) with hpdef
    have hp64 : p ≤ 64 := (integerLength_le_iff hmaxw.1 64).2 hmaxw.2
    have hpx : maxX high < 2 ^ p := lt_pow_integerLength hmaxw.1
    have hmask : ash 1 p - 1 = 2 ^ p - 1 := by rw [ash_ofNat, one_mul]
    have hinv := mulinv_modEq (p := p) hodd hy0 (by omega)
    rw [hmask, trulyTheWord_logand _ hp64, bind_eq_bind, bind_some, truncate,
      Int.tdiv_eq_ediv_of_nonneg (by omega)]
    refine congrArg some (hwrap (gt_eq_not_dvd ?_))
    have htest :=
      @emod_add_le_iff (2 ^ p) 0 ((2 ^ p - 1) / y) (x * mulinv y (2 ^ p - 1)) (by positivity) ?_
    · rw [add_zero, neg_zero, sub_zero] at htest
      rw [htest, dvd_iff_exists_quotient hy0 hx (hxm.trans_lt hpx)]
      simp only [modEq_mul_inverse_iff hinv]
    · exact (Int.ediv_le_self _ (by omega)).trans_lt (by omega)
  · rename_i heven
    obtain ⟨z, odd, hz1, hz, hodd, hodd3, hle, hyz, hzeros, hash⟩ :=
      even_divisor hy0 hyw.2 heven hpow
    have hinv := mulinv_modEq (p := 64) hodd (by omega) (by omega)
    have hword :
      trulyThe 0 mostPositiveWord (logand (x * mulinv odd mostPositiveWord) mostPositiveWord) =
        some (x * mulinv odd (2 ^ 64 - 1) % 2 ^ 64) := trulyTheWord_logand _ le_rfl
    rw [hzeros, hash, hword, bind_eq_bind, bind_some, truncate,
      Int.tdiv_eq_ediv_of_nonneg (by decide)]
    refine congrArg some (hwrap (gt_eq_not_dvd ?_))
    have htest := rotate_test_iff (x := x) (A := 0) (b :=
      (2 ^ 64 - 1) / y) hinv hz (by rw [hyz]; exact ediv_lt_pow (by decide) hz (by omega))
    rw [mul_zero, add_zero, neg_zero, sub_zero, ← hyz] at htest
    exact htest.trans (dvd_iff_exists_quotient hy0 hx (by omega)).symm

/-- The inverse, and the test of a word for every constant and every bound of the dividend. -/
theorem unsigned_remainder_test :
    (∀ (p : ℕ) (d : ℤ), p ≤ 64 → d % 2 = 1 → 0 < d → d ≤ 2 ^ p - 1 →
      d * mulinv d (2 ^ p - 1) ≡ 1 [ZMOD 2 ^ p]) ∧
    ∀ (y x : ℤ) (high : Option ℤ), IsWord y → y ≠ 0 → (∀ k : ℕ, y ≠ 2 ^ k) → IsWord (maxX high) →
      y ≤ maxX high → 0 ≤ x → x ≤ maxX high →
      unsignedRemainderTest y high false x = some (decide (y ∣ x)) ∧
      unsignedRemainderTest y high true x = some (decide ¬y ∣ x) := by
  refine ⟨fun p d _ hodd hd hfit => mulinv_modEq hodd hd hfit,
    fun y x high hy hy0 hpow hmax hym hx hxm => ?_⟩
  have hpos : 0 < y := lt_of_le_of_ne hy.1 hy0.symm
  refine ⟨unsignedRemainderTest_eq false hy hpos hpow hmax hym hx hxm, ?_⟩
  rw [unsignedRemainderTest_eq true hy hpos hpow hmax hym hx hxm, decide_not]
  rfl

theorem unsigned_remainder_test_six :
    5 * mulinv 5 (2 ^ 8 - 1) ≡ 1 [ZMOD 2 ^ 8] ∧ unsignedRemainderTest 6 (some 100) false 42 =
      some (decide ((6 : ℤ) ∣ 42)) ∧
      unsignedRemainderTest 6 (some 100) true 42 = some (decide ¬(6 : ℤ) ∣ 42) := by
  refine ⟨unsigned_remainder_test.1 8 5 (by decide) (by decide) (by decide) (by decide),
    unsigned_remainder_test.2 6 42 (some 100) (by decide) (by decide)
    (ne_two_pow 2 (by decide) (by decide)) (by decide)
      (by decide) (by decide) (by decide)⟩

/-! ## The test of a signed word -/

/-- The dividends that an odd divisor takes for multiples: those near the most negative word with a
multiple a full word away. -/
def NearWrap (y x : ℤ) : Prop := y % 2 = 1 ∧ y ∣ x + 2 ^ 64 ∧ 2 * (x + 2 ^ 63) < |y|

instance (y x : ℤ) : Decidable (NearWrap y x) := inferInstanceAs (Decidable (_ ∧ _))

theorem not_dvd_two_pow (hodd : d % 2 = 1) (hd : 1 < d) (n : ℕ) : ¬d ∣ 2 ^ n := by
  intro hdvd
  have hcop : IsCoprime d (2 ^ n) := by
    refine IsCoprime.pow_right ⟨1, -(d / 2), ?_⟩
    have := Int.emod_add_mul_ediv d 2
    linarith
  have hunit : IsUnit d := hcop.isUnit_of_dvd' dvd_rfl hdvd
  rw [Int.isUnit_iff] at hunit
  omega

/-- The window of an odd divisor: the quotients of the multiples, and one more where the number of
quotients is even. -/
theorem exists_odd_window_iff {d x c : ℤ} (hodd : d % 2 = 1) (hd : 1 < d) (hd' : d < 2 ^ 63)
    (hx : IsSignedWord x) (hc : c = (2 ^ 64 - 1) / d) :
    (∃ k, -(c / 2) ≤ k ∧ k ≤ c - c / 2 ∧ d * k ≡ x [ZMOD 2 ^ 64]) ↔ d ∣ x ∨ d ∣ x + 2 ^ 64 ∧
      2 * (x + 2 ^ 63) < d := by
  have hlow := hx.1
  have hhigh := hx.2
  have hcd : d * c ≤ 2 ^ 64 - 1 := hc ▸ Int.mul_ediv_self_le (by omega)
  have hcd' : 2 ^ 64 ≤ d * (c + 1) := by
    have := Int.lt_mul_ediv_self_add (x := 2 ^ 64 - 1) (show 0 < d by omega)
    rw [← hc] at this
    linarith
  -- the quotients of a range, through twice their products
  have hupper {k : ℤ} (h : k ≤ c - c / 2) : 2 * (d * k) ≤ 2 ^ 64 - 1 + d := by
    calc 2 * (d * k) = d * (2 * k) := by ring
      _ ≤ d * (c + 1) := Int.mul_le_mul_of_nonneg_left (by omega) (by omega)
      _ ≤ 2 ^ 64 - 1 + d := by linarith
  have hlower {k : ℤ} (h : -(c / 2) ≤ k) : -(2 ^ 64 - 1) ≤ 2 * (d * k) := by
    calc -(2 ^ 64 - 1) ≤ -(d * c) := by linarith
      _ = d * -c := by ring
      _ ≤ d * (2 * k) := Int.mul_le_mul_of_nonneg_left (by omega) (by omega)
      _ = 2 * (d * k) := by ring
  have hge {k : ℤ} (h : -(2 ^ 64) < 2 * (d * k)) : -(c / 2) ≤ k := by
    have hlt : d * -(c + 1) < d * (2 * k) := by linarith
    have := Int.lt_of_mul_lt_mul_left hlt (by omega)
    omega
  have hle {k : ℤ} (h : 2 * (d * k) < 2 ^ 64 + d) : k ≤ c - c / 2 := by
    have hlt : d * (2 * k) < d * (c + 2) := by linarith
    have := Int.lt_of_mul_lt_mul_left hlt (by omega)
    omega
  refine ⟨?_, ?_⟩
  · rintro ⟨k, hk, hk', hmod⟩
    have h1 := hupper hk'
    have h2 := hlower hk
    obtain ⟨j, hj⟩ := hmod.symm.dvd
    have hj2 : j = 0 ∨ j = 1 := by omega
    rcases hj2 with rfl | rfl
    · exact Or.inl ⟨k, by omega⟩
    · exact Or.inr ⟨⟨k, by omega⟩, by omega⟩
  · rintro (⟨k, hk⟩ | ⟨⟨k, hk⟩, hnear⟩)
    · have hne : d * k ≠ -(2 ^ 63) :=
        fun h => not_dvd_two_pow hodd hd 63 (Int.dvd_neg.1 ⟨k, h.symm⟩)
      exact ⟨k, hge (by omega), hle (by omega), by rw [hk]⟩
    · refine ⟨k, hge (by omega), hle (by omega), ?_⟩
      rw [← hk]
      exact Int.add_modEq_right ..

theorem exists_even_window_iff {odd x A : ℤ} (hodd : odd % 2 = 1) (hodd' : 1 < odd)
    (hx : IsSignedWord x) (hA : A = (2 ^ 63 - 1) / odd / 2 ^ z) :
    (∃ k, -A ≤ k ∧ k ≤ 2 * A - A ∧ 2 ^ z * odd * k ≡ x [ZMOD 2 ^ 64]) ↔ 2 ^ z * odd ∣ x := by
  have hlow := hx.1
  have hhigh := hx.2
  have hd : 0 < 2 ^ z * odd := by positivity
  have hAd : A = (2 ^ 63 - 1) / (2 ^ z * odd) := by
    rw [hA, Int.ediv_ediv_of_nonneg (by omega), mul_comm]
  have hA1 : 2 ^ z * odd * A ≤ 2 ^ 63 - 1 := hAd ▸ Int.mul_ediv_self_le hd.ne'
  have hle {k : ℤ} (h : 2 ^ z * odd * k ≤ 2 ^ 63 - 1) : k ≤ A := by
    rw [hAd, Int.le_ediv_iff_mul_le hd, mul_comm]
    exact h
  refine (dvd_iff_exists_window (fun k hk => ?_) fun k hk hk' => ?_).symm
  · have hne : 2 ^ z * odd * k ≠ -(2 ^ 63) := by
      refine fun h => not_dvd_two_pow hodd hodd' 63 (Int.dvd_neg.1 ?_)
      rw [← h, mul_assoc]
      exact (Dvd.intro k rfl).mul_left _
    have hneg : -k ≤ A := hle (by rw [mul_neg]; omega)
    have hpos : k ≤ A := hle (by omega)
    exact ⟨by omega, by omega⟩
  · have h1 : 2 ^ z * odd * k ≤ 2 ^ z * odd * A := Int.mul_le_mul_of_nonneg_left (by omega) hd.le
    have h2 : 2 ^ z * odd * -A ≤ 2 ^ z * odd * k := Int.mul_le_mul_of_nonneg_left hk hd.le
    rw [mul_neg] at h2
    exact ⟨by omega, by omega⟩

theorem dpb_zero (n : ℤ) (z : ℕ) : Integer.dpb 0 z 0 n = 2 ^ z * (n / 2 ^ z) := by
  rw [Integer.dpb_eq]
  simp

theorem signedRemainderEqZero_eq (hy : IsSignedWord y) (hy0 : y ≠ 0) (hpow : ∀ k : ℕ, |y| ≠ 2 ^ k)
    (hx : IsSignedWord x) : signedRemainderEqZero y x = decide (y ∣ x ∨ NearWrap y x) := by
  have hpos : 0 < |y| := abs_pos.2 hy0
  have h3 : 3 ≤ |y| := three_le_abs hy0 hpow
  have hlt : |y| < 2 ^ 63 := lt_of_le_of_ne (abs_le.2 ⟨hy.1, hy.2.le⟩) (hpow 63)
  have hparity : |y| % 2 = 1 ↔ y % 2 = 1 := by
    rcases abs_choice y with h | h
    · rw [h]
    · rw [h]
      omega
  have hnot {a b : ℤ} {P : Prop} [Decidable P] (h : a ≤ b ↔ P) : (!decide (a > b)) = decide P := by
    rw [← decide_not]
    exact decide_eq_decide.2 (not_lt.trans h)
  unfold signedRemainderEqZero
  dsimp only
  split
  · rename_i hodd
    have hodd' := hparity.2 hodd
    have hinv := mulinv_modEq (p := 64) hodd' hpos (by omega)
    have hcmp : truncate mostPositiveWord |y| = (2 ^ 64 - 1) / |y| :=
      Int.tdiv_eq_ediv_of_nonneg (by decide)
    have hfit : (2 ^ 64 - 1) / |y| < 2 ^ 64 := (Int.ediv_le_self _ (by decide)).trans_lt (by decide)
    refine hnot ?_
    rw [logand_wordProduct_add, ash_neg_one, hcmp, emod_add_le_iff (by decide) hfit]
    have hwindow := exists_odd_window_iff hodd' (by omega) hlt hx rfl
    have hwrap : NearWrap y x ↔ |y| ∣ x + 2 ^ 64 ∧ 2 * (x + 2 ^ 63) < |y| := by
      simp [NearWrap, hodd]
    rw [hwrap, ← abs_dvd, ← hwindow]
    exact exists_congr fun k => and_congr_right fun _ => and_congr_right fun _ =>
      modEq_mul_inverse_iff hinv
  · rename_i heven
    obtain ⟨z, odd, hz1, hz, hodd, hodd3, hle, hyz, hzeros, hash⟩ :=
      even_divisor hpos (by omega) (fun h => heven (hparity.1 h)) hpow
    have hinv := mulinv_modEq (p := 64) hodd (by omega) (by omega)
    have hadd : Integer.dpb 0 z 0 (truncate (ash mostPositiveWord (-1)) odd) =
        2 ^ z * ((2 ^ 63 - 1) / odd / 2 ^ z) := by
      rw [dpb_zero, ash_neg_one, truncate, Int.tdiv_eq_ediv_of_nonneg (by decide)]
      rfl
    set A := (2 ^ 63 - 1) / odd / 2 ^ z with hA
    have hcmp : ash (2 ^ z * A) (1 - z) = 2 * A := by
      obtain ⟨u, rfl⟩ := Nat.exists_eq_add_of_le' hz1
      rw [show (1 - ((u + 1 : ℕ) : ℤ)) = -(u : ℤ) by push_cast; ring, ash_neg, pow_succ, mul_assoc,
        Int.mul_ediv_cancel_left _ (by positivity)]
    have hbound : 2 * A < 2 ^ (64 - z) := by
      refine lt_of_mul_lt_mul_right (a := (2 : ℤ) ^ z) ?_ (by positivity)
      have h1 : A * 2 ^ z ≤ (2 ^ 63 - 1) / odd := Int.ediv_mul_le _ (by positivity)
      have h2 : (2 ^ 63 - 1) / odd ≤ 2 ^ 63 - 1 := Int.ediv_le_self _ (by decide)
      rw [← pow_add, Nat.sub_add_cancel hz, mul_assoc]
      omega
    rw [hzeros, hash, hadd, hcmp]
    refine hnot ?_
    rw [logand_wordProduct_add]
    have hwindow :=
      (rotate_test_iff hinv hz hbound).trans (exists_even_window_iff hodd (by omega) hx hA)
    have hwrap : ¬NearWrap y x := fun h => heven h.1
    rw [← hyz, abs_dvd] at hwindow
    exact hwindow.trans (or_iff_left hwrap).symm

/-- The test of a signed word is right but for the dividends of `NearWrap`. -/
theorem signedRemainderEqZero_iff (y x : ℤ) (hy : IsSignedWord y) (hy0 : y ≠ 0)
    (hpow : ∀ k : ℕ, |y| ≠ 2 ^ k) (hx : IsSignedWord x) :
    (signedRemainderEqZero y x = true ↔ y ∣ x) ↔ ¬NearWrap y x := by
  have h3 : 3 ≤ |y| := three_le_abs hy0 hpow
  rw [signedRemainderEqZero_eq hy hy0 hpow hx, decide_eq_true_iff]
  have hne : NearWrap y x → ¬y ∣ x := by
    rintro ⟨hodd, hwrap, -⟩ hdvd
    have hodd' : |y| % 2 = 1 := by rcases abs_choice y with h | h <;> rw [h] <;> omega
    exact not_dvd_two_pow hodd' (by omega) 64 ((abs_dvd y _).2 ((dvd_add_right hdvd).1 hwrap))
  tauto

/-- An odd divisor that takes the dividend one above the most negative word for a multiple. -/
theorem not_signedRemainderEqZero_correct :
    ¬∀ y x : ℤ, IsSignedWord y → y ≠ 0 → (∀ k : ℕ, |y| ≠ 2 ^ k) → IsSignedWord x →
      signedRemainderEqZero y x = decide (y ∣ x) := by
  intro h
  have hpow : ∀ k : ℕ, |(3 : ℤ)| ≠ 2 ^ k := ne_two_pow 1 (by decide) (by decide)
  have hfail := h 3 (-2 ^ 63 + 1) (by decide) (by decide) hpow (by decide)
  rw [signedRemainderEqZero_eq (by decide) (by decide) hpow (by decide)] at hfail
  revert hfail
  decide

theorem signedRemainderEqZero_iff_six : (signedRemainderEqZero 6 (-42) = true ↔ (6 : ℤ) ∣ -42) ↔
    ¬NearWrap 6 (-42) :=
  signedRemainderEqZero_iff 6 (-42) (by decide) (by decide)
    (ne_two_pow 2 (by decide) (by decide)) (by decide)

end Sbcl.Compiler
