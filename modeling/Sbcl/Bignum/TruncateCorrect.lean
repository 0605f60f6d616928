import Sbcl.Bignum.ArithmeticCorrect
import Sbcl.Bignum.Truncate

/-!
# Bignum division: correctness

* `shiftRightUnaligned_val`, `bignumAshiftLeftUnaligned_val` : the normalizing shift and its
  inverse;
* `guess_spec` : the guessed digit is the digit of the quotient or one more;
* `tryBignumTruncateGuess_spec`, `returnQuotientLeavingRemainder_spec` : one round of the division,
  and all of them;
* `bignumTruncate_represents`, `bignumTruncateSingleDigit_represents` : quotient and remainder on
  both paths;
* `truncate_integers` : the generic function.
-/

namespace Sbcl.SbBignum

open Limbs Function Nat Int
open BitVec (eq_of_toNat_eq lt_def toNat_and toNat_ofInt)
open Nat (two_pow_pos)

variable {b : Bignum} {p : Bool} {xI2 y2 : Digit} {k m n : ℕ}

/-! ## Shifts -/

variable {s : ℕ}

theorem toNat_shift_or (a b : Digit) (hs : s ≤ digitSize) :
    (a >>> s ||| b <<< (digitSize - s)).toNat = a.toNat / 2 ^ s + b.toNat % 2 ^ s *
      2 ^ (digitSize - s) := by
  have ha : a.toNat / 2 ^ s < 2 ^ (digitSize - s) := by
    rw [Nat.div_lt_iff_lt_mul (by positivity), ← pow_add, Nat.sub_add_cancel hs]
    exact a.isLt
  have hb : (b <<< (digitSize - s)).toNat = b.toNat % 2 ^ s * 2 ^ (digitSize - s) := by
    rw [BitVec.toNat_shiftLeft, Nat.shiftLeft_eq, show (2 : ℕ) ^ 64 = 2 ^ s * 2 ^ (digitSize - s) by
      rw [← pow_add, Nat.add_sub_cancel' hs], Nat.mul_mod_mul_right]
  rw [BitVec.toNat_or, hb, BitVec.toNat_ushiftRight, Nat.shiftRight_eq_div_pow, Nat.or_comm,
    ← Nat.shiftLeft_eq, ← Nat.shiftLeft_add_eq_or_of_lt ha, Nat.add_comm]

theorem toNat_ashr {digit : Digit} (h : digit.msb = false) (s : ℕ) :
    (ashr digit s).toNat = digit.toNat / 2 ^ s := by
  rw [ashr, BitVec.sshiftRight_eq_of_msb_false h, BitVec.toNat_ushiftRight,
    Nat.shiftRight_eq_div_pow]

theorem shiftRightUnaligned_val (f res : Buffer) (hs : s ≤ digitSize) (hn : 0 < n)
    (hmsb : signBit f n = false) : val (shiftRightUnaligned f s n res) n = val f n / 2 ^ s := by
  obtain ⟨m, rfl⟩ := exists_eq_succ_of_ne_zero hn.ne'
  have hR : (2 : ℕ) ^ (digitSize - s) * 2 ^ s = 2 ^ digitSize := by
    rw [← pow_add, Nat.sub_add_cancel hs]
  have hpos : 0 < 2 ^ s := by positivity
  have h := dotimes_induction (n := m) (s := res)
    (f := fun j res => update res j (f j >>> s ||| f (j + 1) <<< (digitSize - s)))
    (P := fun j res => val res j * 2 ^ s + (f 0).toNat % 2 ^ s = val f j + (f j).toNat % 2 ^ s *
      2 ^ (digitSize * j))
    (by simp) fun j _ t ht => by
      have hd := div_add_mod (f j).toNat (2 ^ s)
      rw [val_update_succ, toNat_shift_or _ _ hs, val_succ, radix_succ]
      linear_combination ht + 2 ^ (digitSize * j) * hd + (f (j + 1)).toNat % 2 ^ s *
        2 ^ (digitSize * j) * hR
  have htop : (ashr (f m) s).toNat = (f m).toNat / 2 ^ s := toNat_ashr hmsb s
  have hd := div_add_mod (f m).toNat (2 ^ s)
  have hval : val (shiftRightUnaligned f s (m + 1) res) (m + 1) * 2 ^ s + (f 0).toNat % 2 ^ s =
      val f (m + 1) := by
    unfold shiftRightUnaligned
    simp only [Nat.add_sub_cancel]
    rw [val_update_succ, htop, val_succ]
    linear_combination h + 2 ^ (digitSize * m) * hd
  rw [succ_eq_add_one, ← hval, Nat.mul_comm, mul_add_div hpos,
    div_eq_of_lt (Nat.mod_lt _ hpos), add_zero]

variable {f : Buffer}

theorem normalizeBignumBuffer_of_nonneg {len : ℕ} (h : signBit f len = false) :
    (normalizeBignumBuffer f len).1 = f := by
  fun_induction normalizeBignumBuffer f len with
  | case1 f => rfl
  | case2 f => rfl
  | case3 f len heq ih =>
    have hf : update f (len + 1) 0 = f := by
      rw [update_eq_self_iff]
      have hs : (f (len + 1)).msb = false := h
      rw [heq, ashr_sign, msb_signLimb digitSize_pos] at hs
      rw [heq, ashr_sign, hs]
      rfl
    rw [hf] at ih ⊢
    refine ih ?_
    have hs : (f (len + 1)).msb = false := h
    rwa [heq, ashr_sign, msb_signLimb digitSize_pos] at hs
  | case4 f len hne => rfl

theorem toNat_shl (a : Digit) (hs : s ≤ digitSize) :
    (a <<< s).toNat + a.toNat / 2 ^ (digitSize - s) * 2 ^ digitSize = 2 ^ s * a.toNat := by
  have hR : (2 : ℕ) ^ (digitSize - s) * 2 ^ s = 2 ^ digitSize := by
    rw [← pow_add, Nat.sub_add_cancel hs]
  have hd := div_add_mod a.toNat (2 ^ (digitSize - s))
  have hshl : (a <<< s).toNat = a.toNat % 2 ^ (digitSize - s) * 2 ^ s := by
    rw [BitVec.toNat_shiftLeft, Nat.shiftLeft_eq,
      show (2 : ℕ) ^ 64 = 2 ^ (digitSize - s) * 2 ^ s from hR.symm, Nat.mul_mod_mul_right]
  rw [hshl]
  linear_combination 2 ^ s * hd - a.toNat / 2 ^ (digitSize - s) * hR

theorem val_shifted {b : Buffer} (hs : s ≤ digitSize) (h0 : f 0 = b 0 <<< s)
    (h : ∀ j < n, f (j + 1) = b j >>> (digitSize - s) ||| b (j + 1) <<< s) :
    val f (n + 1) + (b n).toNat / 2 ^ (digitSize - s) * 2 ^ (digitSize * (n + 1)) =
      2 ^ s * val b (n + 1) := by
  induction n with
  | zero =>
    rw [val_succ, val_succ, h0, val_zero, val_zero, mul_zero, pow_zero, mul_one, zero_add, mul_one,
      zero_add, zero_add, mul_one]
    exact toNat_shl (b 0) hs
  | succ n ih =>
    have hR : (2 : ℕ) ^ (digitSize - s) * 2 ^ s = 2 ^ digitSize := by
      rw [← pow_add, Nat.sub_add_cancel hs]
    have hor := toNat_shift_or (b n) (b (n + 1)) (sub_le digitSize s)
    rw [Nat.sub_sub_self hs] at hor
    have hd := div_add_mod (b (n + 1)).toNat (2 ^ (digitSize - s))
    have ih := ih fun j hj => h j (hj.trans n.lt_succ_self)
    rw [val_succ, h n n.lt_succ_self, hor, val_succ b, radix_succ digitSize (n + 1)]
    linear_combination ih + 2 ^ s * 2 ^ (digitSize * (n + 1)) * hd -
      (b (n + 1)).toNat / 2 ^ (digitSize - s) * 2 ^ (digitSize * (n + 1)) * hR

theorem bignumAshiftLeftUnaligned_val (b res : Buffer) (hs : s < digitSize) (hn : 0 < n)
    (hmsb : signBit b n = false) :
    val (bignumAshiftLeftUnaligned b 0 s (n + 1) res) (n + 1) = 2 ^ s * val b n := by
  obtain ⟨m, rfl⟩ := exists_eq_succ_of_ne_zero hn.ne'
  have hloop := dotimes_induction (n := m) (s := res)
    (f := fun i res => update res (0 + 1 + i) (b i >>> (digitSize - s) ||| b (i + 1) <<< s))
    (P := fun i res => ∀ j < i, res (j + 1) = b j >>> (digitSize - s) ||| b (j + 1) <<< s) (by simp)
    fun i _ t ht j hj => by
      rcases Nat.lt_succ_iff_lt_or_eq.1 hj with hlt | rfl
      · rw [update_of_ne (by omega)]
        exact ht j hlt
      · rw [show 0 + 1 + j = j + 1 by omega, update_self]
  unfold bignumAshiftLeftUnaligned
  simp only [succ_eq_add_one, Nat.add_sub_cancel, Nat.zero_add]
  simp only [Nat.zero_add] at hloop
  generalize dotimes m res _ = t at hloop ⊢
  set f := update (update t 0 (b 0 <<< s)) (m + 1) (ashr (b m) (digitSize - s)) with hf
  have htop : (f (m + 1)).toNat = (b m).toNat / 2 ^ (digitSize - s) := by
    rw [hf, update_self]
    exact toNat_ashr hmsb _
  have hsign : signBit f (m + 2) = false := by
    have hlt : (f (m + 1)).toNat < 2 ^ s := by
      rw [htop, Nat.div_lt_iff_lt_mul (by positivity), ← pow_add, Nat.add_sub_cancel' hs.le]
      exact (b m).isLt
    have hle : 2 ^ s ≤ 2 ^ (digitSize - 1) := Nat.pow_le_pow_right two_pos (by omega)
    show (f (m + 1)).msb = false
    rw [BitVec.msb_eq_decide, decide_eq_false_iff_not, not_le]
    exact hlt.trans_le hle
  rw [normalizeBignumBuffer_of_nonneg hsign, val_succ, htop]
  refine val_shifted hs.le (by rw [hf, update_of_ne (by omega), update_self]) fun j hj => ?_
  rw [hf, update_of_ne (by omega), update_of_ne (by omega)]
  exact hloop j hj

/-! ## The guess -/

theorem multiply_eq (x y : Digit) :
    (multiply x y).2.toNat + (multiply x y).1.toNat * 2 ^ digitSize = x.toNat * y.toNat := by
  have h := multiplyAndAdd_eq x y 0 0
  rw [show (0 : Digit).toNat = 0 from rfl, add_zero, add_zero] at h
  exact h

theorem digit_eq_zero_iff (d : Digit) : d = 0 ↔ d.toNat = 0 :=
  ⟨fun h => by rw [h]; rfl, fun h => eq_of_toNat_eq h⟩

theorem digit_eq_iff (c d : Digit) : c = d ↔ c.toNat = d.toNat :=
  ⟨fun h => by rw [h], eq_of_toNat_eq⟩

variable {y1 xI xI1 guess : Digit}

theorem guessTooLarge_iff
    (h : guess.toNat * y1.toNat ≤ xI.toNat * 2 ^ digitSize + xI1.toNat) :
    guessTooLarge y1 y2 xI xI1 xI2 guess = true ↔
      (xI.toNat * 2 ^ digitSize + xI1.toNat) * 2 ^ digitSize + xI2.toNat <
        guess.toNat * (y1.toNat * 2 ^ digitSize + y2.toNat) := by
  have h1 := multiply_eq guess y1
  have h2 := multiply_eq guess y2
  have hm := subtractWithBorrow_eq xI1 (multiply guess y1).2 true
  have hh := subtractWithBorrow_eq xI (multiply guess y1).1
    (subtractWithBorrow xI1 (multiply guess y1).2 true).2
  unfold guessTooLarge
  rw [decide_eq_true_iff, digit_eq_zero_iff, digit_eq_iff, gt_iff_lt, gt_iff_lt, lt_def, lt_def]
  generalize (multiply guess y1).2 = l1, (multiply guess y1).1 = g1, (multiply guess y2).2 = l2,
    (multiply guess y2).1 = g2 at *
  generalize subtractWithBorrow xI1 l1 true = m at *
  generalize subtractWithBorrow xI g1 m.2 = d at *
  rw [Nat.mul_add, ← h2, show guess.toNat * (y1.toNat * 2 ^ digitSize) =
    guess.toNat * y1.toNat * 2 ^ digitSize by ring, ← h1]
  rw [← h1] at h
  rw [show true.toNat = 1 from rfl] at hm
  -- There is no borrow out of the high digit, and the two digits are the difference.
  simp only [digitSize] at *
  omega

theorem toNat_pred (h : 0 < guess.toNat) :
    (subtractWithBorrow guess 1 true).1.toNat = guess.toNat - 1 := by
  have heq := subtractWithBorrow_eq guess 1 true
  rw [show (1 : Digit).toNat = 1 from rfl, show true.toNat = 1 from rfl] at heq
  omega

theorem guessLoop_spec (y2 xI2 : Digit)
    (h : guess.toNat * y1.toNat ≤ xI.toNat * 2 ^ digitSize + xI1.toNat) :
    (guessLoop y1 y2 xI xI1 xI2 guess).toNat * (y1.toNat * 2 ^ digitSize + y2.toNat) ≤
        (xI.toNat * 2 ^ digitSize + xI1.toNat) * 2 ^ digitSize + xI2.toNat ∧
      ∀ g ≤ guess.toNat, g * (y1.toNat * 2 ^ digitSize + y2.toNat) ≤
        (xI.toNat * 2 ^ digitSize + xI1.toNat) * 2 ^ digitSize + xI2.toNat →
          g ≤ (guessLoop y1 y2 xI xI1 xI2 guess).toNat := by
  fun_induction guessLoop y1 y2 xI xI1 xI2 guess with
  | case1 guess hlarge ih =>
    have hpos : 0 < guess.toNat := (Nat.zero_le _).trans_lt (guess_pos hlarge)
    have hpred := toNat_pred hpos
    have hbig := (guessTooLarge_iff h).1 hlarge
    have hsub : (subtractWithBorrow guess 1 true).1.toNat ≤ guess.toNat := by omega
    obtain ⟨hle, hmax⟩ := ih ((Nat.mul_le_mul_right _ hsub).trans h)
    refine ⟨hle, fun g hg hgle => hmax g ?_ hgle⟩
    rw [hpred]
    rcases Nat.lt_or_eq_of_le hg with hlt | rfl
    · omega
    · exact absurd hgle hbig.not_ge
  | case2 guess hok =>
    exact ⟨not_lt.1 (mt (guessTooLarge_iff h).2 hok), fun g hg _ => hg⟩

theorem toNat_bigfloor {hi y : Digit} (lo : Digit) (h : hi.toNat < y.toNat) :
    (bigfloor hi lo y).1.toNat = (hi.toNat * 2 ^ digitSize + lo.toNat) / y.toNat ∧
      (bigfloor hi lo y).2.toNat = (hi.toNat * 2 ^ digitSize + lo.toNat) % y.toNat := by
  have hy : 0 < y.toNat := (Nat.zero_le _).trans_lt h
  have hlo : lo.toNat < 2 ^ digitSize := lo.isLt
  have hq : (hi.toNat * 2 ^ digitSize + lo.toNat) / y.toNat < 2 ^ digitSize := by
    rw [Nat.div_lt_iff_lt_mul hy]
    calc hi.toNat * 2 ^ digitSize + lo.toNat < (hi.toNat + 1) * 2 ^ digitSize := by linarith
      _ ≤ y.toNat * 2 ^ digitSize := Nat.mul_le_mul_right _ h
      _ = 2 ^ digitSize * y.toNat := Nat.mul_comm _ _
  have hylt : y.toNat < 2 ^ digitSize := y.isLt
  have hr : (hi.toNat * 2 ^ digitSize + lo.toNat) % y.toNat < 2 ^ digitSize :=
    (Nat.mod_lt _ hy).trans hylt
  unfold bigfloor
  rw [BitVec.toNat_ofNat, BitVec.toNat_ofNat, mod_eq_of_lt hq, mod_eq_of_lt hr]
  exact ⟨rfl, rfl⟩

/-- The guess is the digit of the quotient or one more, when the divisor `Y` begins with a digit
that is a quarter of the radix at least, and the dividend `X` is less than the divisor times the
radix. -/
theorem guess_spec {X Y M : ℕ} (hM : 0 < M) (hy1 : 2 ^ (digitSize - 2) ≤ y1.toNat)
    (hYlo : (y1.toNat * 2 ^ digitSize + y2.toNat) * M ≤ Y)
    (hYhi : Y < (y1.toNat * 2 ^ digitSize + y2.toNat + 1) * M)
    (hXlo : ((xI.toNat * 2 ^ digitSize + xI1.toNat) * 2 ^ digitSize + xI2.toNat) * M ≤ X)
    (hXhi : X < ((xI.toNat * 2 ^ digitSize + xI1.toNat) * 2 ^ digitSize + xI2.toNat + 1) * M)
    (hXY : X < Y * 2 ^ digitSize) :
    X / Y ≤ (bignumTruncateGuess y1 y2 xI xI1 xI2).toNat ∧
    (bignumTruncateGuess y1 y2 xI xI1 xI2).toNat ≤ X / Y + 1 := by
  have hy2 : y2.toNat < 2 ^ digitSize := y2.isLt
  have hx2 : xI2.toNat < 2 ^ digitSize := xI2.isLt
  have hone : 1 ≤ y1.toNat := Nat.one_le_two_pow.trans hy1
  obtain ⟨D, hD⟩ : ∃ D, y1.toNat * 2 ^ digitSize + y2.toNat = D := ⟨_, rfl⟩
  obtain ⟨N, hN⟩ : ∃ N, (xI.toNat * 2 ^ digitSize + xI1.toNat) * 2 ^ digitSize + xI2.toNat = N :=
    ⟨_, rfl⟩
  rw [hD] at hYlo hYhi
  rw [hN] at hXlo hXhi
  have hDlt : D + 1 ≤ (y1.toNat + 1) * 2 ^ digitSize := by linarith
  have hDge : 2 ^ digitSize ≤ D := by
    calc 2 ^ digitSize ≤ y1.toNat * 2 ^ digitSize := Nat.le_mul_of_pos_left _ hone
      _ ≤ D := by omega
  have hYpos : 0 < Y := (Nat.mul_pos ((two_pow_pos _).trans_le hDge) hM).trans_le hYlo
  have hqY : X / Y * Y ≤ X := div_mul_le_self X Y
  have hqB : X / Y < 2 ^ digitSize := (Nat.div_lt_iff_lt_mul hYpos).2 (by rwa [Nat.mul_comm])
  have hqD : X / Y * D ≤ N := by
    refine Nat.lt_succ_iff.1 (Nat.lt_of_mul_lt_mul_right (a := M) ?_)
    calc X / Y * D * M = X / Y * (D * M) := Nat.mul_assoc ..
      _ ≤ X / Y * Y := Nat.mul_le_mul_left _ hYlo
      _ < (N + 1) * M := hqY.trans_lt hXhi
  have hle : xI.toNat ≤ y1.toNat := by
    by_contra hc
    have h1 : (y1.toNat + 1) * 2 ^ digitSize * 2 ^ digitSize ≤ N :=
      calc (y1.toNat + 1) * 2 ^ digitSize * 2 ^ digitSize ≤
        xI.toNat * 2 ^ digitSize * 2 ^ digitSize :=
            Nat.mul_le_mul_right _ (Nat.mul_le_mul_right _ (not_le.1 hc))
        _ ≤ (xI.toNat * 2 ^ digitSize + xI1.toNat) * 2 ^ digitSize :=
          Nat.mul_le_mul_right _ (Nat.le_add_right _ _)
        _ ≤ N := (Nat.le_add_right _ _).trans hN.le
    have h2 : X < N * M :=
      calc X < (D + 1) * M * 2 ^ digitSize := hXY.trans_le (Nat.mul_le_mul_right _ hYhi.le)
        _ ≤ (y1.toNat + 1) * 2 ^ digitSize * M * 2 ^ digitSize := by gcongr
        _ = (y1.toNat + 1) * 2 ^ digitSize * 2 ^ digitSize * M := by ring
        _ ≤ N * M := Nat.mul_le_mul_right _ h1
    exact absurd hXlo h2.not_ge
  unfold bignumTruncateGuess
  set guess : Digit := if xI = y1 then allOnesDigit else (bigfloor xI xI1 y1).1 with hguess
  have hstart : guess.toNat * y1.toNat ≤ xI.toNat * 2 ^ digitSize + xI1.toNat ∧
      X / Y ≤ guess.toNat := by
    by_cases h : xI = y1
    · have hall : guess.toNat = 2 ^ digitSize - 1 := by
        rw [hguess, if_pos h]; exact BitVec.toNat_allOnes
      rw [hall, h]
      refine ⟨?_, le_sub_one_of_lt hqB⟩
      calc (2 ^ digitSize - 1) * y1.toNat ≤ 2 ^ digitSize * y1.toNat :=
        Nat.mul_le_mul_right _ (sub_le _ _)
        _ ≤ y1.toNat * 2 ^ digitSize + xI1.toNat := by linarith
    · have hlt : xI.toNat < y1.toNat := lt_of_le_of_ne hle fun heq => h (eq_of_toNat_eq heq)
      have hfl : guess.toNat = (xI.toNat * 2 ^ digitSize + xI1.toNat) / y1.toNat := by
        rw [hguess, if_neg h]
        exact (toNat_bigfloor xI1 hlt).1
      rw [hfl]
      refine ⟨div_mul_le_self _ _, (Nat.le_div_iff_mul_le hone).2 ?_⟩
      refine Nat.lt_succ_iff.1 (Nat.lt_of_mul_lt_mul_right (a := 2 ^ digitSize) ?_)
      calc X / Y * y1.toNat * 2 ^ digitSize = X / Y * (y1.toNat * 2 ^ digitSize) := Nat.mul_assoc ..
        _ ≤ X / Y * D := Nat.mul_le_mul_left _ (by omega)
        _ ≤ N := hqD
        _ < (xI.toNat * 2 ^ digitSize + xI1.toNat).succ * 2 ^ digitSize := by
          rw [← hN, Nat.succ_mul]; omega
  obtain ⟨hgD, hmax⟩ := guessLoop_spec y2 xI2 hstart.1
  rw [hD, hN] at hgD hmax
  refine ⟨hmax _ hstart.2 hqD, ?_⟩
  generalize guessLoop y1 y2 xI xI1 xI2 guess = g at hgD ⊢
  have hg : g.toNat < 2 ^ digitSize := g.isLt
  rw [← add_div_right _ hYpos, Nat.le_div_iff_mul_le hYpos]
  calc g.toNat * Y ≤ g.toNat * ((D + 1) * M) := Nat.mul_le_mul_left _ hYhi.le
    _ = g.toNat * D * M + g.toNat * M := by ring
    _ ≤ N * M + D * M :=
      Nat.add_le_add (Nat.mul_le_mul_right _ hgD) (Nat.mul_le_mul_right _ (hg.le.trans hDge))
    _ ≤ X + Y := Nat.add_le_add hXlo hYlo

/-! ## A round of the division -/

theorem multiplySubtract_spec (y f : Buffer) (guess : Digit) (n k : ℕ) :
    let t := dotimes n (f, (0 : Digit), true) fun j t =>
      (update t.1 (k + j)
        (subtractWithBorrow (t.1 (k + j)) (multiplyAndAdd guess (y j) 0 t.2.1).2 t.2.2).1,
        (multiplyAndAdd guess (y j) 0 t.2.1).1,
        (subtractWithBorrow (t.1 (k + j)) (multiplyAndAdd guess (y j) 0 t.2.1).2 t.2.2).2)
    val (window t.1 k) n + guess.toNat * val y n + t.2.2.toNat * 2 ^ (digitSize * n) =
        val (window f k) n + t.2.1.toNat * 2 ^ (digitSize * n) + 2 ^ (digitSize * n) ∧
      ∀ i, i < k ∨ k + n ≤ i → t.1 i = f i := by
  refine dotimes_induction (P := fun j (t : Buffer × Digit × Bool) =>
    val (window t.1 k) j + guess.toNat * val y j + t.2.2.toNat * 2 ^ (digitSize * j) =
        val (window f k) j + t.2.1.toNat * 2 ^ (digitSize * j) + 2 ^ (digitSize * j) ∧
      ∀ i, i < k ∨ k + j ≤ i → t.1 i = f i) ⟨by simp, fun _ _ => rfl⟩ ?_
  rintro j hj t ⟨hv, hframe⟩
  refine ⟨?_, fun i hi => ?_⟩
  · have hm := congrArg (· * 2 ^ (digitSize * j)) (multiplyAndAdd_eq guess (y j) 0 t.2.1)
    have hs := congrArg (· * 2 ^ (digitSize * j))
      (subtractWithBorrow_eq (t.1 (k + j)) (multiplyAndAdd guess (y j) 0 t.2.1).2 t.2.2)
    rw [show (0 : Digit).toNat = 0 from rfl] at hm
    rw [window_update, val_update_succ, val_succ y, val_succ, radix_succ,
      show window f k j = t.1 (k + j) from
      (hframe (k + j) (.inr le_rfl)).symm]
    linear_combination hv + hs - hm
  · show update t.1 (k + j) _ i = f i
    rw [update_of_ne (by omega)]
    exact hframe i (by omega)

theorem addBack_spec (y f : Buffer) (n k : ℕ) :
    let t := dotimes n (f, false) fun j t =>
      (update t.1 (k + j) (addWithCarry (y j) (t.1 (k + j)) t.2).1,
        (addWithCarry (y j) (t.1 (k + j)) t.2).2)
    val (window t.1 k) n + t.2.toNat * 2 ^ (digitSize * n) = val y n + val (window f k) n ∧
      ∀ i, i < k ∨ k + n ≤ i → t.1 i = f i := by
  refine dotimes_induction (P := fun j (t : Buffer × Bool) =>
    val (window t.1 k) j + t.2.toNat * 2 ^ (digitSize * j) = val y j + val (window f k) j ∧
      ∀ i, i < k ∨ k + j ≤ i → t.1 i = f i) ⟨by simp, fun _ _ => rfl⟩ ?_
  rintro j hj t ⟨hv, hframe⟩
  refine ⟨?_, fun i hi => ?_⟩
  · have ha := congrArg (· * 2 ^ (digitSize * j)) (addWithCarry_eq (y j) (t.1 (k + j)) t.2)
    rw [window_update, val_update_succ, val_succ, val_succ, radix_succ,
      show window f k j = t.1 (k + j) from
      (hframe (k + j) (.inr le_rfl)).symm]
    linear_combination hv + ha
  · show update t.1 (k + j) _ i = f i
    rw [update_of_ne (by omega)]
    exact hframe i (by omega)

theorem val_window_update_top (f : Buffer) (k n : ℕ) (v : Digit) :
    val (window (update f (k + n) v) k)
      (n + 1) = val (window f k) n + v.toNat * 2 ^ (digitSize * n) := by
  rw [window_update, val_update_succ]

theorem digit0OrPlusp_top (f : Buffer) (k n : ℕ) :
    digit0OrPlusp (f (k + n)) = true ↔ 2 * val (window f k)
      (n + 1) < 2 ^ (digitSize * (n + 1)) := by
  have h : digit0OrPlusp (f (k + n)) = !signBit (window f k) (n + 1) := rfl
  rw [h, Bool.not_eq_true', ← Bool.not_eq_true, signBit_iff digitSize_pos n.succ_pos, not_le]

variable {R : ℕ}

/-- What is left of a dividend `W` after a multiple of the divisor was taken from it, modulo the
radix `R`: the remainder where the guess is right, and the remainder less a divisor where it is one
too large. -/
theorem remainder_of_guess {V W Y g b : ℕ} (hV : V + g * Y + b * R = W + R) (hVR : V < R)
    (hY : 2 * Y < R) (hpos : 0 < Y) (hb : b ≤ 1) (hlo : W / Y ≤ g) (hhi : g ≤ W / Y + 1) :
    (2 * V < R → g = W / Y ∧ V = W % Y) ∧ (¬2 * V < R → g = W / Y + 1 ∧ V + Y = W % Y + R) := by
  have hW : Y * (W / Y) + W % Y = W := div_add_mod W Y
  have hr : W % Y < Y := Nat.mod_lt W hpos
  have hg : g = W / Y ∨ g = W / Y + 1 := by omega
  have hb' : b = 0 ∨ b = 1 := by omega
  generalize W / Y = q at *
  generalize W % Y = r at *
  rcases hg with rfl | rfl
  · have h : V + b * R = r + R := by linear_combination hV - hW
    rcases hb' with rfl | rfl <;> refine ⟨fun hs => ⟨rfl, by linarith⟩, fun hs => by linarith⟩
  · have h : V + Y + b * R = r + R := by linear_combination hV - hW
    rcases hb' with rfl | rfl <;> refine ⟨fun hs => by linarith, fun hs => ⟨rfl, by linarith⟩⟩

variable {y : Buffer}

theorem tryBignumTruncateGuess_spec
    (hY : 2 * val y n < 2 ^ (digitSize * n))
    (hlo : val (window f k) (n + 1) / val y n ≤ guess.toNat)
    (hhi : guess.toNat ≤ val (window f k) (n + 1) / val y n + 1) (hpos : 0 < val y n) :
    let r := tryBignumTruncateGuess y guess n k f
    r.1.toNat = val (window f k) (n + 1) / val y n ∧
      val (window r.2 k) (n + 1) = val (window f k) (n + 1) % val y n ∧
      ∀ i, i < k ∨ k + n < i → r.2 i = f i := by
  obtain ⟨hv, hframe⟩ := multiplySubtract_spec y f guess n k
  unfold tryBignumTruncateGuess
  dsimp only at hv hframe ⊢
  generalize dotimes n (f, (0 : Digit), true) _ = t at hv hframe ⊢
  have htop := subtractWithBorrow_eq (t.1 (k + n)) t.2.1 t.2.2
  generalize subtractWithBorrow (t.1 (k + n)) t.2.1 t.2.2 = x at htop ⊢
  have hW : val (window f k) (n + 1) = val (window f k) n + (t.1 (k + n)).toNat *
      2 ^ (digitSize * n) := by
    rw [val_succ, hframe (k + n) (.inr le_rfl)]
    rfl
  have hV : val (window (update t.1 (k + n) x.1) k) (n + 1) + guess.toNat * val y n +
      x.2.toNat * 2 ^ (digitSize * (n + 1)) =
        val (window f k) (n + 1) + 2 ^ (digitSize * (n + 1)) := by
    rw [val_window_update_top, hW, radix_succ]
    linear_combination hv + 2 ^ (digitSize * n) * htop
  have hframe' : ∀ i, i < k ∨ k + n < i → update t.1 (k + n) x.1 i = f i := fun i hi => by
    rw [update_of_ne (by omega)]
    exact hframe i (by omega)
  generalize update t.1 (k + n) x.1 = u at hV hframe' ⊢
  have hYR : 2 * val y n < 2 ^ (digitSize * (n + 1)) :=
    hY.trans_le (Nat.pow_le_pow_right two_pos (Nat.mul_le_mul_left _ n.le_succ))
  obtain ⟨hright, hlarge⟩ := remainder_of_guess hV (val_lt _ _) hYR hpos (toNat_bool_le _) hlo hhi
  rw [← digit0OrPlusp_top] at hright hlarge
  by_cases hsign : digit0OrPlusp (u (k + n)) = true
  · rw [if_pos hsign]
    exact ⟨(hright hsign).1, (hright hsign).2, hframe'⟩
  rw [if_neg hsign]
  obtain ⟨hg, hrem⟩ := hlarge hsign
  obtain ⟨ha, hback⟩ := addBack_spec y u n k
  dsimp only at ha hback ⊢
  generalize dotimes n (u, false) _ = s at ha hback ⊢
  refine ⟨by rw [toNat_pred (by rw [hg]; exact succ_pos _), hg, Nat.add_sub_cancel],
    ?_, fun i hi => ?_⟩
  · have hc := addWithCarry_eq (s.1 (k + n)) 0 s.2
    rw [show (0 : Digit).toNat = 0 from rfl, add_zero] at hc
    have hu : val (window u k) (n + 1) = val (window u k) n + (s.1 (k + n)).toNat *
        2 ^ (digitSize * n) := by
      rw [val_succ, hback (k + n) (.inr le_rfl)]
      rfl
    have hsum : val (window (update s.1 (k + n) (addWithCarry (s.1 (k + n)) 0 s.2).1) k) (n + 1) +
        (addWithCarry (s.1 (k + n)) 0 s.2).2.toNat * 2 ^ (digitSize * (n + 1)) =
          val (window f k) (n + 1) % val y n + 2 ^ (digitSize * (n + 1)) := by
      rw [val_window_update_top]
      rw [radix_succ] at hrem ⊢
      linear_combination ha + 2 ^ (digitSize * n) * hc + hrem - hu
    have hlt := val_lt (window (update s.1 (k + n) (addWithCarry (s.1 (k + n)) 0 s.2).1) k) (n + 1)
    have hb := toNat_bool_le (addWithCarry (s.1 (k + n)) 0 s.2).2
    generalize (addWithCarry (s.1 (k + n)) 0 s.2).2.toNat = c at hsum hb
    rcases Nat.le_one_iff_eq_zero_or_eq_one.1 hb with rfl | rfl
    · rw [zero_mul, add_zero] at hsum
      exact absurd hsum ((hlt.trans_le (Nat.le_add_left _ _)).ne)
    · rw [one_mul] at hsum
      exact Nat.add_right_cancel hsum
  · rw [update_of_ne (by omega)]
    exact (hback i (by omega)).trans (hframe' i hi)

/-! ## The rounds -/

theorem val_succ_window (f : Buffer) (k n : ℕ) :
    val (window f k) (n + 1) = (f k).toNat + val (window f (k + 1)) n * 2 ^ digitSize := by
  have h := val_add (window f k) 1 n
  rw [val_one, mul_one] at h
  rw [add_comm n 1, h]
  unfold window
  simp only [add_assoc, add_zero]

theorem add_mul_bounds {a q : ℕ} (h : a < R) : q * R ≤ a + q * R ∧ a + q * R < (q + 1) * R := by
  rw [Nat.succ_mul]
  exact ⟨Nat.le_add_left _ _, by omega⟩

theorem val_top_two (f : Buffer) (m : ℕ) :
    ((f (m + 1)).toNat * 2 ^ digitSize + (f m).toNat) * 2 ^ (digitSize * m) ≤ val f (m + 2) ∧
      val f (m + 2) < ((f (m + 1)).toNat * 2 ^ digitSize + (f m).toNat + 1) *
        2 ^ (digitSize * m) := by
  have h : val f (m + 2) =
      val f m + ((f (m + 1)).toNat * 2 ^ digitSize + (f m).toNat) * 2 ^ (digitSize * m) := by
    rw [val_succ, val_succ, radix_succ]
    ring
  rw [h]
  exact add_mul_bounds (val_lt f m)

theorem val_top_three (f : Buffer) (m : ℕ) :
    (((f (m + 2)).toNat * 2 ^ digitSize + (f (m + 1)).toNat) * 2 ^ digitSize + (f m).toNat) *
      2 ^ (digitSize * m) ≤
        val f (m + 3) ∧
      val f (m + 3) <
        (((f (m + 2)).toNat * 2 ^ digitSize + (f (m + 1)).toNat) * 2 ^ digitSize +
          (f m).toNat + 1) *
        2 ^ (digitSize * m) := by
  have h : val f (m + 3) = val f m +
      (((f (m + 2)).toNat * 2 ^ digitSize + (f (m + 1)).toNat) * 2 ^ digitSize + (f m).toNat) *
        2 ^ (digitSize * m) := by
    rw [val_succ, val_succ, val_succ, radix_succ, radix_succ]
    ring
  rw [h]
  exact add_mul_bounds (val_lt f m)

theorem val_of_lt (h : val f (n + 1) < 2 ^ (digitSize * n)) : val f n = val f (n + 1) := by
  rcases Nat.eq_zero_or_pos (f n).toNat with h0 | hpos
  · rw [val_succ, h0, zero_mul, add_zero]
  · refine absurd h (not_lt.2 ?_)
    rw [val_succ]
    exact (Nat.le_mul_of_pos_left _ hpos).trans (Nat.le_add_left _ _)

/-- A divisor as the schoolbook division takes it, normalized by the shift. -/
structure Divisor (y : Buffer) (m : ℕ) : Prop where
  quarter : 2 ^ (digitSize - 2) ≤ (y (m + 1)).toNat
  half : 2 * val y (m + 2) < 2 ^ (digitSize * (m + 2))

theorem Divisor.pos (h : Divisor y m) : 0 < val y (m + 2) := by
  refine lt_of_lt_of_le (Nat.mul_pos ?_ (two_pow_pos _)) (val_top_two y m).1
  exact Nat.add_pos_left (Nat.mul_pos ((two_pow_pos _).trans_le h.quarter) (two_pow_pos _)) _

theorem Divisor.guess_spec (hy : Divisor y m)
    (hW : val (window f k) (m + 3) < val y (m + 2) * 2 ^ digitSize) :
    let guess := bignumTruncateGuess (y (m + 1)) (y m) (f (k + m + 2)) (f (k + m + 1)) (f (k + m))
    val (window f k) (m + 3) / val y (m + 2) ≤ guess.toNat ∧
      guess.toNat ≤ val (window f k) (m + 3) / val y (m + 2) + 1 := by
  obtain ⟨hYlo, hYhi⟩ := val_top_two y m
  obtain ⟨hXlo, hXhi⟩ := val_top_three (window f k) m
  exact SbBignum.guess_spec (two_pow_pos _) hy.quarter hYlo hYhi hXlo hXhi hW

theorem round_spec (hy : Divisor y m)
    (hW : val (window f k) (m + 3) < val y (m + 2) * 2 ^ digitSize) :
    let guess := bignumTruncateGuess (y (m + 1)) (y m) (f (k + m + 2)) (f (k + m + 1)) (f (k + m))
    let r := tryBignumTruncateGuess y guess (m + 2) k f
    r.1.toNat = val (window f k) (m + 3) / val y (m + 2) ∧
      val (window r.2 k) (m + 2) = val (window f k) (m + 3) % val y (m + 2) ∧
      val r.2 k = val f k := by
  intro guess r
  obtain ⟨hlo, hhi⟩ := hy.guess_spec hW
  obtain ⟨hdigit, hrem, hframe⟩ :=
    tryBignumTruncateGuess_spec (f := f) (k := k) hy.half hlo hhi hy.pos
  refine ⟨hdigit, ?_, val_congr fun i hi => hframe i (.inl hi)⟩
  have hlt : val (window f k) (m + 3) % val y (m + 2) < val y (m + 2) := Nat.mod_lt _ hy.pos
  exact (val_of_lt (by rw [hrem]; exact hlt.trans (val_lt y (m + 2)))).trans hrem

/-- After some rounds: the digits of the quotient from `k` on, and a dividend of `k` digits more
than the divisor. -/
structure Rounds (y x : Buffer) (m lenQ k i : ℕ) (t : Buffer × Buffer) : Prop where
  value : val x (lenQ + (m + 2)) =
    val (window t.1 k) i * (val y (m + 2) * 2 ^ (digitSize * k)) + val t.2 (k + (m + 2))
  bound : val t.2 (k + (m + 2)) < val y (m + 2) * 2 ^ (digitSize * k)
  top : t.1 lenQ = 0

variable {lenQ : ℕ}

theorem Rounds.step {x q : Buffer} {m k i : ℕ} (hy : Divisor y m) (hk : k < lenQ)
    (h : Rounds y x m lenQ (k + 1) i (q, f)) :
    let guess := bignumTruncateGuess (y (m + 1)) (y m) (f (k + m + 2)) (f (k + m + 1)) (f (k + m))
    let r := tryBignumTruncateGuess y guess (m + 2) k f
    Rounds y x m lenQ k (i + 1) (update q k r.1, r.2) := by
  intro guess r
  obtain ⟨hval, hlt, htop⟩ := h
  have hsplit :
      val f (k + 1 + (m + 2)) = val f k + val (window f k) (m + 3) * 2 ^ (digitSize * k) := by
    rw [show k + 1 + (m + 2) = k + (m + 3) by omega]
    exact val_add f k (m + 3)
  have hW : val (window f k) (m + 3) < val y (m + 2) * 2 ^ digitSize := by
    refine Nat.lt_of_mul_lt_mul_right (a := 2 ^ (digitSize * k)) ?_
    calc val (window f k) (m + 3) * 2 ^ (digitSize * k) ≤ val f (k + 1 + (m + 2)) := by
          rw [hsplit]; exact Nat.le_add_left _ _
      _ < val y (m + 2) * 2 ^ (digitSize * (k + 1)) := hlt
      _ = val y (m + 2) * 2 ^ digitSize * 2 ^ (digitSize * k) := by rw [radix_succ, Nat.mul_assoc]
  obtain ⟨hdigit, hrem, hlow⟩ : r.1.toNat = val (window f k) (m + 3) / val y (m + 2) ∧
      val (window r.2 k) (m + 2) = val (window f k) (m + 3) % val y (m + 2) ∧ val r.2 k = val f k :=
        round_spec hy hW
  have hW' := div_add_mod (val (window f k) (m + 3)) (val y (m + 2))
  have hmod := Nat.mod_lt (val (window f k) (m + 3)) hy.pos
  rw [← hdigit, ← hrem] at hW'
  rw [← hrem] at hmod
  have hs : val r.2 (k + (m + 2)) = val f k + val (window r.2 k) (m + 2) * 2 ^ (digitSize * k) := by
    rw [← hlow]
    exact val_add r.2 k (m + 2)
  refine ⟨?_, ?_, (update_of_ne hk.ne' _ _).trans htop⟩
  · have hq : window (update q k r.1) (k + 1) = window q (k + 1) := funext fun j => by
      unfold window
      rw [update_of_ne (by omega)]
    rw [hs, hval, hsplit, val_succ_window (update q k r.1), update_self, hq, radix_succ]
    linear_combination 2 ^ (digitSize * k) * hW'.symm
  · dsimp only
    rw [hs]
    calc val f k + val (window r.2 k) (m + 2) * 2 ^ (digitSize * k)
        < (val (window r.2 k) (m + 2) + 1) * 2 ^ (digitSize * k) := (add_mul_bounds (val_lt f k)).2
      _ ≤ val y (m + 2) * 2 ^ (digitSize * k) := Nat.mul_le_mul_right _ hmod

theorem returnQuotientLeavingRemainder_spec {x : Buffer} (fresh : Buffer) (hy : Divisor y m)
    (hx : val x (lenQ + (m + 2)) < val y (m + 2) * 2 ^ (digitSize * lenQ)) :
    let r := returnQuotientLeavingRemainder y (lenQ + (m + 2)) (m + 2) x fresh
    val r.1 (lenQ + 1) = val x (lenQ + (m + 2)) / val y (m + 2) ∧
      val r.2 (m + 2) = val x (lenQ + (m + 2)) % val y (m + 2) ∧
      2 * val r.1 (lenQ + 1) < 2 ^ (digitSize * (lenQ + 1)) := by
  intro r
  have h : Rounds y x m lenQ 0 lenQ r := by
    rw [← Nat.sub_self lenQ]
    show Rounds y x m lenQ (lenQ - lenQ) lenQ (returnQuotientLeavingRemainder y (lenQ + (m + 2))
      (m + 2) x fresh)
    unfold returnQuotientLeavingRemainder
    simp only [Nat.add_sub_cancel]
    refine dotimes_induction (P := fun i t => Rounds y x m lenQ (lenQ - i) i t)
      ⟨by simp, by simpa using hx, update_self ..⟩ ?_
    rintro i hi ⟨q, f⟩ ht
    obtain ⟨k, rfl⟩ : ∃ k, lenQ = k + 1 + i := ⟨lenQ - 1 - i, by omega⟩
    rw [Nat.add_sub_cancel] at ht
    rw [show k + 1 + i - 1 - i = k by omega, show k + 1 + i - (i + 1) = k by omega,
      show k + 1 + i + (m + 2) - 1 - i = k + m + 2 by omega,
      show k + m + 2 - 1 = k + m + 1 by omega,
      show k + m + 2 - 2 = k + m by omega, show m + 2 - 1 = m + 1 by omega]
    exact ht.step hy (by omega)
  obtain ⟨hX, hlt, htop⟩ := h
  rw [mul_zero, pow_zero, mul_one, zero_add] at hX hlt
  have hq : val r.1 (lenQ + 1) = val (window r.1 0) lenQ := by
    rw [val_succ, htop, show (0 : Digit).toNat = 0 from rfl, zero_mul, add_zero]
    exact val_congr fun i _ => by unfold window; rw [zero_add]
  have hlen : 2 * val (window r.1 0) lenQ < 2 ^ (digitSize * (lenQ + 1)) := by
    rw [radix_succ]
    exact Nat.mul_lt_mul_of_le_of_lt (by decide) (val_lt _ lenQ) (two_pow_pos _)
  rw [hq, hX, Nat.add_comm (_ * _), add_mul_div_right _ _ hy.pos, add_mul_mod_self_right,
    div_eq_of_lt hlt, mod_eq_of_lt hlt, zero_add]
  exact ⟨rfl, rfl, hlen⟩

/-! ## Magnitudes -/

/-- An integer before its sign is put on: its digits, which need not be normalized. -/
def LispInteger.Magnitude (r : LispInteger) (z : ℕ) : Prop :=
  match r with
  | fixnum n => n.val = z
  | bignum b => 0 < b.length ∧ val b.ref b.length = z ∧ 2 * z < 2 ^ (digitSize * b.length)

variable {r : LispInteger} {z : ℕ}

theorem LispInteger.Magnitude.represents (h : r.Magnitude z) (keep : Prop) [Decidable keep] :
    (if keep then r else r.negateInPlace).normalize.Represents (if keep then (z : ℤ) else -z) := by
  cases r with
  | fixnum n =>
    have hz : n.val = z := h
    split_ifs
    · exact hz
    have hne : n ≠ mostNegativeFixnum := by
      intro heq
      have hneg : n.val = -2 ^ nPositiveFixnumBits := by rw [heq]; rfl
      simp only [nPositiveFixnumBits] at hneg
      omega
    have hneg : (fixnum n).negateInPlace = negateFixnum n := rfl
    rw [hneg, negateFixnum, dif_neg hne]
    exact congrArg Neg.neg hz
  | bignum b =>
    obtain ⟨hpos, hz, hlt⟩ := h
    have hs := represents_signed hpos (¬keep) (f := b.ref) (by rw [hz]; exact_mod_cast hlt)
    rw [hz] at hs
    by_cases hk : keep
    · simpa [hk, negateInPlace, normalize] using hs
    · simpa [hk, negateInPlace, normalize] using hs

theorem LispInteger.Represents.magnitude (h : r.Represents z) : r.Magnitude z := by
  cases r with
  | fixnum n => exact h
  | bignum b =>
    obtain ⟨hz, hb⟩ := h
    have hval := val_of_nonneg (b := b) (by rw [hz]; exact natCast_nonneg z)
    have hfits := (fits_sval digitSize_pos b.ref hb.length_pos).2
    rw [show sval b.ref b.length = z from hz] at hfits
    refine ⟨hb.length_pos, ?_, by exact_mod_cast hfits⟩
    exact_mod_cast hval.trans hz

theorem normalizeBignum_of_val (hn : 0 < n) (h : val f n = z) (hz : 2 * z < 2 ^ (digitSize * n)) :
    (normalizeBignum f n).Represents z := by
  have hz' : 2 * (z : ℤ) < 2 ^ (digitSize * n) := by exact_mod_cast hz
  refine normalizeBignum_of_modEq hn (by rw [h]) ⟨?_, hz'⟩
  linarith [natCast_nonneg z]

theorem signed_tdiv {a b : ℤ} {p q : Bool} (hp : p = true ↔ 0 ≤ a) (hq : q = true ↔ 0 ≤ b) :
    (if p = q then ((a.natAbs / b.natAbs : ℕ) : ℤ) else -((a.natAbs / b.natAbs : ℕ) : ℤ)) =
      a.tdiv b := by
  cases p <;> cases q <;> simp at hp hq
  · obtain ⟨m, rfl⟩ := exists_eq_neg_ofNat hp.le
    obtain ⟨n, rfl⟩ := exists_eq_neg_ofNat hq.le
    simp
  · obtain ⟨m, rfl⟩ := exists_eq_neg_ofNat hp.le
    obtain ⟨n, rfl⟩ := eq_ofNat_of_zero_le hq
    simp
  · obtain ⟨m, rfl⟩ := eq_ofNat_of_zero_le hp
    obtain ⟨n, rfl⟩ := exists_eq_neg_ofNat hq.le
    simp
  · obtain ⟨m, rfl⟩ := eq_ofNat_of_zero_le hp
    obtain ⟨n, rfl⟩ := eq_ofNat_of_zero_le hq
    simp

theorem signed_tmod {a : ℤ} (b : ℤ) (hp : p = true ↔ 0 ≤ a) :
    (if p = true then ((a.natAbs % b.natAbs : ℕ) : ℤ) else -((a.natAbs % b.natAbs : ℕ) : ℤ)) =
      a.tmod b := by
  have hb : ∀ m : ℕ, ((m % b.natAbs : ℕ) : ℤ) = (m : ℤ).tmod b := fun m => by
    obtain ⟨n, rfl | rfl⟩ := b.eq_nat_or_neg
    · rw [natAbs_natCast, ofNat_tmod]
    · rw [natAbs_neg, natAbs_natCast, tmod_neg, ofNat_tmod]
  rw [hb]
  cases p <;> simp at hp
  · obtain ⟨m, rfl⟩ := exists_eq_neg_ofNat hp.le
    rw [if_neg (by simp), natAbs_neg, natAbs_natCast, neg_tmod]
  · obtain ⟨m, rfl⟩ := eq_ofNat_of_zero_le hp
    rw [if_pos rfl, natAbs_natCast]

/-! ## Comparison -/

theorem compareDigits_pos_iff (a b : Buffer) (n : ℕ) : 0 < compareDigits a b n ↔
    val b n < val a n := by
  induction n with
  | zero => simp [compareDigits]
  | succ n ih =>
    have ha := val_lt a n
    have hb := val_lt b n
    have hdef : compareDigits a b (n + 1) = if (b n).toNat < (a n).toNat then 1
        else if (a n).toNat < (b n).toNat then -1 else compareDigits a b n := rfl
    rw [hdef, val_succ, val_succ]
    rcases lt_trichotomy (b n).toNat (a n).toNat with hlt | heq | hlt
    · rw [if_pos hlt]
      refine iff_of_true one_pos ?_
      calc val b n + (b n).toNat * 2 ^ (digitSize * n) < ((b n).toNat + 1) * 2 ^ (digitSize * n) :=
        (add_mul_bounds hb).2
        _ ≤ (a n).toNat * 2 ^ (digitSize * n) := Nat.mul_le_mul_right _ hlt
        _ ≤ val a n + (a n).toNat * 2 ^ (digitSize * n) := Nat.le_add_left _ _
    · rw [heq, if_neg (lt_irrefl _), if_neg (lt_irrefl _), ih]
      exact (Nat.add_lt_add_iff_right).symm
    · rw [if_neg hlt.not_gt, if_pos hlt]
      refine iff_of_false (by decide) (not_lt.2 ?_)
      calc val a n + (a n).toNat * 2 ^ (digitSize * n) ≤ ((a n).toNat + 1) * 2 ^ (digitSize * n) :=
            (add_mul_bounds ha).2.le
        _ ≤ (b n).toNat * 2 ^ (digitSize * n) := Nat.mul_le_mul_right _ hlt
        _ ≤ val b n + (b n).toNat * 2 ^ (digitSize * n) := Nat.le_add_left _ _

variable {a : Bignum}

theorem lt_of_length_lt (ha : Minimal a) (hb : Minimal b) (ha0 : 0 ≤ a.toInt)
    (h : b.length < a.length) : b.toInt < a.toInt := by
  have hnot := ha.minimal b.length hb.length_pos h
  have hfits : Fits digitSize b.length b.toInt := fits_sval digitSize_pos b.ref hb.length_pos
  have h0 : (0 : ℤ) < 2 ^ (digitSize * b.length) := by positivity
  by_contra hle
  exact hnot ⟨by linarith, by linarith [hfits.2]⟩

theorem bignumCompare_pos_iff (ha : Minimal a) (hb : Minimal b) (ha0 : 0 ≤ a.toInt)
    (hb0 : 0 ≤ b.toInt) : 0 < bignumCompare a b ↔ b.toInt < a.toInt := by
  have hpa : bignum0OrPlusp a.ref a.length = true := (bignumPlusP_iff a).2 ha0
  have hpb : bignum0OrPlusp b.ref b.length = true := (bignumPlusP_iff b).2 hb0
  unfold bignumCompare
  rw [hpa, hpb, if_neg (by simp)]
  rcases lt_trichotomy a.length b.length with hlt | heq | hgt
  · rw [if_neg hlt.ne, if_neg hlt.not_gt, if_pos rfl]
    exact iff_of_false (by decide) (lt_of_length_lt hb ha hb0 hlt).le.not_gt
  · rw [if_pos heq, compareDigits_pos_iff, ← val_of_nonneg ha0, ← val_of_nonneg hb0, heq]
    exact cast_lt.symm
  · rw [if_neg hgt.ne', if_pos hgt, if_pos rfl]
    exact iff_of_true one_pos (lt_of_length_lt ha hb ha0 hgt)

/-! ## The normalizing shift -/

/-- The shift by what a top limb `d` of `w` bits lacks, for a number that has its top bit in that
limb or at the top of the one below. -/
theorem shift_bounds {w d low : ℕ} (hw : 2 ≤ w) (hd : d.size ≤ w - 1) (hlow : low < R)
    (hbig : R ≤ 2 * (low + d * R)) :
    w - d.size - 1 < w ∧ 2 ^ (w - 2) * R ≤ 2 ^ (w - d.size - 1) * (low + d * R) ∧
      2 ^ (w - d.size - 1) * (low + d * R) < 2 ^ (w - 1) * R := by
  refine ⟨by omega, ?_⟩
  rcases Nat.eq_zero_or_pos d with rfl | hpos
  · -- The last limb is only sign: the one below it has its top bit set.
    rw [size_zero, Nat.sub_zero, zero_mul, add_zero] at *
    refine ⟨?_, Nat.mul_lt_mul_of_pos_left hlow (two_pow_pos _)⟩
    calc 2 ^ (w - 2) * R ≤ 2 ^ (w - 2) * (2 * low) := Nat.mul_le_mul_left _ hbig
      _ = 2 ^ (w - 2 + 1) * low := by ring
      _ = 2 ^ (w - 1) * low := by rw [show w - 2 + 1 = w - 1 by omega]
  · obtain ⟨k, hk⟩ := exists_eq_succ_of_ne_zero (size_pos.2 hpos).ne'
    have hlo : 2 ^ k ≤ d := lt_size.1 (by omega)
    have hhi : d + 1 ≤ 2 ^ (k + 1) := size_le.1 hk.le
    obtain ⟨hlo', hhi'⟩ := add_mul_bounds (q := d) hlow
    rw [hk]
    constructor
    · calc 2 ^ (w - 2) * R = 2 ^ (w - k.succ - 1 + k) * R := by rw [show w - k.succ - 1 + k = w - 2 by omega]
        _ = 2 ^ (w - k.succ - 1) * (2 ^ k * R) := by ring
        _ ≤ 2 ^ (w - k.succ - 1) * (low + d * R) :=
            Nat.mul_le_mul_left _ ((Nat.mul_le_mul_right R hlo).trans hlo')
    calc 2 ^ (w - k.succ - 1) * (low + d * R) < 2 ^ (w - k.succ - 1) * ((d + 1) * R) :=
          Nat.mul_lt_mul_of_pos_left hhi' (two_pow_pos _)
      _ ≤ 2 ^ (w - k.succ - 1) * (2 ^ (k + 1) * R) :=
        Nat.mul_le_mul_left _ (Nat.mul_le_mul_right R hhi)
      _ = 2 ^ (w - k.succ - 1 + (k + 1)) * R := by ring
      _ = 2 ^ (w - 1) * R := by rw [show w - k.succ - 1 + (k + 1) = w - 1 by omega]

theorem two_mul_val_lt (hb : 0 < b.length) (h0 : 0 ≤ b.toInt) :
    2 * val b.ref b.length < 2 ^ (digitSize * b.length) := by
  have h := (fits_sval digitSize_pos b.ref hb).2
  rw [show sval b.ref b.length = val b.ref b.length from (val_of_nonneg h0).symm] at h
  exact_mod_cast h

theorem le_two_mul_val (hb : Minimal b) (h0 : 0 ≤ b.toInt) (hlen : b.length = n + 1) (hn : 0 < n) :
    2 ^ (digitSize * n) ≤ 2 * val b.ref (n + 1) := by
  have hnot : ¬Fits digitSize n b.toInt := hb.minimal n hn (by omega)
  by_contra hc
  rw [← val_of_nonneg h0, hlen] at hnot
  have hz : (2 * val b.ref (n + 1) : ℤ) < 2 ^ (digitSize * n) := by exact_mod_cast not_le.1 hc
  exact hnot ⟨by linarith, hz⟩

theorem shiftYForTruncate_spec {y : Bignum} (hy : Minimal y) (h0 : 0 ≤ y.toInt)
    (hlen : y.length = m + 2) : shiftYForTruncate y < digitSize ∧
      2 ^ (digitSize - 2) * 2 ^ (digitSize * (m + 1)) ≤
        2 ^ shiftYForTruncate y * val y.ref (m + 2) ∧
      2 ^ shiftYForTruncate y * val y.ref (m + 2) <
        2 ^ (digitSize - 1) * 2 ^ (digitSize * (m + 1)) := by
  have hbig := le_two_mul_val hy h0 hlen m.succ_pos
  have hsize : (y.ref (m + 1)).toNat.size ≤ digitSize - 1 := by
    have hs := (sval_nonneg_iff y.ref y.length).1 h0
    rw [hlen] at hs
    have hmsb : (y.ref (m + 1)).msb = false := hs
    rw [BitVec.msb_eq_decide, decide_eq_false_iff_not, not_le] at hmsb
    exact size_le.2 hmsb
  unfold shiftYForTruncate
  rw [hlen, show m + 2 - 1 = m + 1 by omega, integerLength_natCast, val_succ]
  rw [val_succ] at hbig
  exact shift_bounds (by decide) hsize (val_lt y.ref (m + 1)) hbig

theorem divisor_of_val (hlo : 2 ^ (digitSize - 2) * 2 ^ (digitSize * (m + 1)) ≤ val f (m + 2))
    (hhi : val f (m + 2) < 2 ^ (digitSize - 1) * 2 ^ (digitSize * (m + 1))) : Divisor f m := by
  refine ⟨?_, ?_⟩
  · by_contra hc
    refine hlo.not_gt ?_
    calc val f (m + 2) < ((f (m + 1)).toNat + 1) * 2 ^ (digitSize * (m + 1)) := by
          rw [val_succ]
          exact (add_mul_bounds (val_lt f (m + 1))).2
      _ ≤ 2 ^ (digitSize - 2) * 2 ^ (digitSize * (m + 1)) := Nat.mul_le_mul_right _ (not_le.1 hc)
  · calc 2 * val f (m + 2) < 2 * (2 ^ (digitSize - 1) * 2 ^ (digitSize * (m + 1))) :=
          Nat.mul_lt_mul_of_pos_left hhi two_pos
      _ = 2 ^ (digitSize * (m + 2)) := by rw [radix_succ digitSize (m + 1)]; ring

/-- The digits of an operand, shifted. -/
def shifted (fresh : Buffer) (b : Bignum) (s : ℕ) : Buffer :=
  if s = 0 then bignumReplace (allocZeroing fresh (b.length + 1)) b.ref b.length
  else bignumAshiftLeftUnaligned b.ref 0 s (b.length + 1) (allocZeroing fresh (b.length + 1))

theorem shifted_val (fresh : Buffer) (hs : s < digitSize) (hb : 0 < b.length) (h0 : 0 ≤ b.toInt) :
    val (shifted fresh b s) (b.length + 1) = 2 ^ s * val b.ref b.length := by
  unfold shifted
  split_ifs with h
  · have hcopy : ∀ i < b.length,
        bignumReplace (allocZeroing fresh (b.length + 1)) b.ref b.length i = b.ref i :=
      fun i hi => if_pos hi
    have htop : bignumReplace (allocZeroing fresh (b.length + 1)) b.ref b.length b.length = 0 := by
      unfold bignumReplace allocZeroing
      rw [if_neg (lt_irrefl _), if_pos (Nat.lt_succ_self _)]
    rw [h, pow_zero, one_mul, val_succ, htop, val_congr hcopy]
    simp
  · exact bignumAshiftLeftUnaligned_val _ _ hs hb ((sval_nonneg_iff _ _).1 h0)

theorem unshifted_represents (fresh f : Buffer) {n r : ℕ} (hs : s < digitSize) (hn : 0 < n)
    (hf : val f n = 2 ^ s * r) (hhalf : 2 * (2 ^ s * r) < 2 ^ (digitSize * n)) :
    (if s = 0 then normalizeBignum (bignumReplace fresh f n) n
      else normalizeBignum (shiftRightUnaligned f s n fresh) n).Represents r := by
  have hr : 2 * r < 2 ^ (digitSize * n) :=
    (Nat.mul_le_mul_left 2 (Nat.le_mul_of_pos_left r (two_pow_pos s))).trans_lt hhalf
  split_ifs with h
  · rw [h, pow_zero, one_mul] at hf
    exact normalizeBignum_of_val hn ((val_congr fun i hi => if_pos hi).trans hf) hr
  have hsign : signBit f n = false := by
    rw [← Bool.not_eq_true, signBit_iff digitSize_pos hn, not_le, hf]
    exact hhalf
  refine normalizeBignum_of_val hn ?_ hr
  rw [shiftRightUnaligned_val f fresh hs.le hn hsign, hf, Nat.mul_div_cancel_left r (two_pow_pos s)]

/-! ## The schoolbook division -/

theorem divisor_shifted (fresh : Buffer) {y : Bignum} (hy : Minimal y) (hy0 : 0 ≤ y.toInt)
    (hlen : y.length = m + 2) :
    Divisor (shifted fresh y (shiftYForTruncate y)) m ∧
      val (shifted fresh y (shiftYForTruncate y))
        (m + 2) = 2 ^ shiftYForTruncate y * val y.ref (m + 2) := by
  obtain ⟨hs, hlo, hhi⟩ := shiftYForTruncate_spec hy hy0 hlen
  have hY : val (shifted fresh y (shiftYForTruncate y)) (m + 2) =
      2 ^ shiftYForTruncate y * val y.ref (m + 2) := by
    have h := shifted_val fresh hs hy.length_pos hy0
    rw [hlen] at h
    rw [val_of_lt, h]
    rw [h]
    refine hhi.trans_le ?_
    rw [radix_succ digitSize (m + 1)]
    exact Nat.mul_le_mul_right _ (Nat.pow_le_pow_right two_pos (sub_le _ _))
  rw [← hY] at hlo hhi
  exact ⟨divisor_of_val hlo hhi, hY⟩

variable {x : Bignum}

theorem schoolbook_spec (freshX freshY freshQ : Buffer) {y : Bignum} (hx : Minimal x)
    (hy : Minimal y)
    (hx0 : 0 ≤ x.toInt) (hy0 : 0 ≤ y.toInt) (hlen : y.length = m + 2) (hlenQ : x.length + 1 = lenQ + (m + 2)) :
    let s := shiftYForTruncate y
    let t := returnQuotientLeavingRemainder (shifted freshY y s) (lenQ + (m + 2)) (m + 2) (shifted freshX x s) freshQ
    val t.1 (lenQ + 1) = val x.ref x.length / val y.ref y.length ∧
      2 * val t.1 (lenQ + 1) < 2 ^ (digitSize * (lenQ + 1)) ∧
      val t.2 (m + 2) = 2 ^ s * (val x.ref x.length % val y.ref y.length) ∧
      2 * (2 ^ s * (val x.ref x.length % val y.ref y.length)) < 2 ^ (digitSize * (m + 2)) := by
  intro s t
  obtain ⟨hs, hlo, hhi⟩ := shiftYForTruncate_spec hy hy0 hlen
  obtain ⟨hdiv, hY⟩ : Divisor (shifted freshY y s) m ∧
      val (shifted freshY y s) (m + 2) = 2 ^ s * val y.ref (m + 2) :=
        divisor_shifted freshY hy hy0 hlen
  have hX : val (shifted freshX x s) (lenQ + (m + 2)) = 2 ^ s * val x.ref x.length := by
    rw [← hlenQ]
    exact shifted_val freshX hs hx.length_pos hx0
  rw [← hY] at hlo
  have hXY : val (shifted freshX x s) (lenQ + (m + 2)) < val (shifted freshY y s) (m + 2) *
      2 ^ (digitSize * lenQ) := by
    have hxhalf := two_mul_val_lt hx.length_pos hx0
    have hR : 2 ^ (digitSize * x.length) = 2 ^ (digitSize * (m + 1)) * 2 ^ (digitSize * lenQ) := by
      rw [← radix_add, show m + 1 + lenQ = x.length by omega]
    refine lt_of_lt_of_le ?_ (Nat.mul_le_mul_right _ hlo)
    rw [hX, Nat.mul_assoc, ← hR]
    refine Nat.lt_of_mul_lt_mul_left (a := 2) ?_
    calc 2 * (2 ^ s * val x.ref x.length) = 2 ^ s * (2 * val x.ref x.length) := by ring
      _ < 2 ^ s * 2 ^ (digitSize * x.length) := Nat.mul_lt_mul_of_pos_left hxhalf (two_pow_pos _)
      _ ≤ 2 ^ (digitSize - 2 + 1) * 2 ^ (digitSize * x.length) :=
          Nat.mul_le_mul_right _ (Nat.pow_le_pow_right two_pos (by omega))
      _ = 2 * (2 ^ (digitSize - 2) * 2 ^ (digitSize * x.length)) := by rw [pow_succ]; ring
  obtain ⟨hq, hr, hqlt⟩ :
      val t.1 (lenQ + 1) = val (shifted freshX x s) (lenQ + (m + 2)) /
        val (shifted freshY y s) (m + 2) ∧
        val t.2 (m + 2) = val (shifted freshX x s) (lenQ + (m + 2)) %
          val (shifted freshY y s) (m + 2) ∧
        2 * val t.1 (lenQ + 1) < 2 ^ (digitSize * (lenQ + 1)) :=
    returnQuotientLeavingRemainder_spec freshQ hdiv hXY
  have hmod := Nat.mod_lt (val (shifted freshX x s) (lenQ + (m + 2))) hdiv.pos
  have hhalf := hdiv.half
  rw [hlen]
  rw [hX, hY, Nat.mul_div_mul_left _ _ (two_pow_pos s)] at hq
  rw [hX, hY, mul_mod_mul_left] at hr hmod
  rw [hY] at hhalf
  exact ⟨hq, hqlt, hr, (Nat.mul_lt_mul_of_pos_left hmod two_pos).trans hhalf⟩

theorem truncate_magnitudes (fresh : ℕ → Buffer) {y : Bignum} (hx : Minimal x) (hy : Minimal y)
    (hx0 : 0 ≤ x.toInt) (hy0 : 0 ≤ y.toInt) (hlen : y.length = m + 2) :
    let s := shiftYForTruncate y
    let t := returnQuotientLeavingRemainder (shifted (fresh 3) y s) (x.length + 1) y.length (shifted (fresh 2) x s)
      (fresh 4)
    let r := if bignumCompare y x > 0 then
        (LispInteger.fixnum zeroFixnum,
          LispInteger.bignum ⟨x.length, bignumReplace (fresh 2) x.ref x.length⟩)
      else (.bignum ⟨x.length + 1 - y.length + 1, t.1⟩,
        if s = 0 then normalizeBignum (bignumReplace (fresh 5) t.2 y.length) y.length
        else normalizeBignum (shiftRightUnaligned t.2 s y.length (fresh 5)) y.length)
    r.1.Magnitude (x.toInt.natAbs / y.toInt.natAbs) ∧
    r.2.Magnitude (x.toInt.natAbs % y.toInt.natAbs) := by
  intro s t r
  have hxval : val x.ref x.length = x.toInt.natAbs := by have := val_of_nonneg hx0; omega
  have hyval : val y.ref y.length = y.toInt.natAbs := by have := val_of_nonneg hy0; omega
  rw [← hxval, ← hyval]
  by_cases hcmp : bignumCompare y x > 0
  · have hlt : val x.ref x.length < val y.ref y.length := by
      have h := (bignumCompare_pos_iff hy hx hy0 hx0).1 hcmp
      rw [← val_of_nonneg hx0, ← val_of_nonneg hy0] at h
      exact_mod_cast h
    have hr : r = _ := if_pos hcmp
    rw [hr, div_eq_of_lt hlt, mod_eq_of_lt hlt]
    exact ⟨rfl, hx.length_pos, val_congr fun i hi => if_pos hi, two_mul_val_lt hx.length_pos hx0⟩
  · have hr : r = _ := if_neg hcmp
    have hle : y.length ≤ x.length := by
      by_contra hc
      exact hcmp ((bignumCompare_pos_iff hy hx hy0 hx0).2 (lt_of_length_lt hy hx hy0 (not_le.1 hc)))
    obtain ⟨lenQ, hlenQ⟩ : ∃ lenQ, x.length + 1 = lenQ + (m + 2) :=
      ⟨x.length + 1 - (m + 2), by omega⟩
    have hspec := schoolbook_spec (fresh 2) (fresh 3) (fresh 4) hx hy hx0 hy0 hlen hlenQ
    rw [← hlenQ, ← hlen] at hspec
    obtain ⟨hq, hqlt, hrem, hhalf⟩ : val t.1 (lenQ + 1) = _ ∧ 2 * val t.1 (lenQ + 1) < _ ∧
        val t.2 y.length = _ ∧ _ := hspec
    rw [hr, show x.length + 1 - y.length + 1 = lenQ + 1 by omega]
    rw [hq] at hqlt
    exact ⟨⟨succ_pos _, hq, hqlt⟩,
      (unshifted_represents (fresh 5) t.2 (shiftYForTruncate_spec hy hy0 hlen).1
      hy.length_pos hrem hhalf).magnitude⟩

theorem exists_length (hb : Minimal b) (h : 2 ^ (digitSize - 1) ≤ b.toInt) :
    ∃ m, b.length = m + 2 := by
  refine ⟨b.length - 2, ?_⟩
  have hpos := hb.length_pos
  by_contra hc
  have hlen : b.length = 1 := by omega
  have hfits : Fits digitSize b.length b.toInt := fits_sval digitSize_pos b.ref hpos
  rw [hlen] at hfits
  have := hfits.2
  norm_num at *
  omega

theorem bignumTruncate_represents (fresh : ℕ → Buffer) {y : Bignum} (hx : Minimal x)
    (hy : Minimal y) (hbig : 2 ^ (digitSize - 1) ≤ |y.toInt|) :
    (bignumTruncate fresh x y).1.Represents (x.toInt.tdiv y.toInt) ∧
      (bignumTruncate fresh x y).2.Represents (x.toInt.tmod y.toInt) := by
  obtain ⟨hx', hxval⟩ := abs_spec (fresh 0) hx
  obtain ⟨hy', hyval⟩ := abs_spec (fresh 1) hy
  rw [← signed_tdiv (bignumPlusP_iff x) (bignumPlusP_iff y), ← signed_tmod _ (bignumPlusP_iff x),
    ← natAbs_abs x.toInt, ← natAbs_abs y.toInt, ← hxval, ← hyval]
  rw [← hyval] at hbig
  unfold bignumTruncate
  dsimp only
  generalize (if bignumPlusP x = true then x else negateBignumNotFullyNormalized (fresh 0) x) =
    a at *
  generalize (if bignumPlusP y = true then y else negateBignumNotFullyNormalized (fresh 1) y) =
    b at *
  obtain ⟨m, hlen⟩ := exists_length hy' hbig
  obtain ⟨hq, hr⟩ := truncate_magnitudes fresh hx' hy' (by rw [hxval]; exact abs_nonneg _)
    (by rw [hyval]; exact abs_nonneg _) hlen
  have hq' := hq.represents (bignumPlusP x = bignumPlusP y)
  have hr' := hr.represents (bignumPlusP x = true)
  unfold shifted at hq' hr'
  split_ifs at * with hcmp hs
  all_goals exact ⟨hq', hr'⟩

/-! ## The division by a word -/

/-- After some rounds: the digits of the quotient from `k` on, and the remainder so far. -/
structure WordRounds (x : Buffer) (y : Digit) (lenX k i : ℕ) (t : Buffer × Digit) : Prop where
  value : val x lenX = (val (window t.1 k) i * y.toNat + t.2.toNat) * 2 ^ (digitSize * k) + val x k
  bound : t.2.toNat < y.toNat

theorem WordRounds.step {x q : Buffer} {y r : Digit} {lenX k i : ℕ}
    (h : WordRounds x y lenX (k + 1) i (q, r)) :
    WordRounds x y lenX k (i + 1) (update q k (bigfloor r (x k) y).1, (bigfloor r (x k) y).2) := by
  obtain ⟨hval, hlt⟩ := h
  obtain ⟨hq, hr⟩ := toNat_bigfloor (x k) hlt
  have hdiv := div_add_mod (r.toNat * 2 ^ digitSize + (x k).toNat) y.toNat
  rw [← hq, ← hr] at hdiv
  have hwin : window (update q k (bigfloor r (x k) y).1) (k + 1) = window q (k + 1) :=
    funext fun j => by
    unfold window
    rw [update_of_ne (by omega)]
  refine ⟨?_, by dsimp only; rw [hr]; exact Nat.mod_lt _ ((Nat.zero_le _).trans_lt hlt)⟩
  dsimp only
  rw [hval, val_succ_window, update_self, hwin, val_succ, radix_succ]
  linear_combination 2 ^ (digitSize * k) * hdiv.symm

theorem isPowerOfTwo_of_and {y : Digit} (hy : y ≠ 0) (h : y &&& (y - 1) = 0) :
    y.toNat = 2 ^ (integerLength y.toNat - 1) ∧ (y - 1).toNat = y.toNat - 1 := by
  have hpos : 0 < y.toNat := Nat.pos_of_ne_zero fun h0 => hy (eq_of_toNat_eq h0)
  have hsub : (y - 1).toNat = y.toNat - 1 := by
    rw [BitVec.toNat_sub_of_le (by rw [BitVec.le_def]; exact hpos)]
    rfl
  refine ⟨?_, hsub⟩
  have hand : y.toNat &&& (y.toNat - 1) = 0 := by
    rw [← hsub, ← toNat_and, h]
    rfl
  obtain ⟨k, hk⟩ := (and_sub_one_eq_zero_iff_isPowerOfTwo hpos.ne').1 hand
  rw [hk, integerLength_natCast, size_pow, Nat.add_sub_cancel]

theorem val_mod_pow (x : Buffer) (hk : k ≤ digitSize) (hn : 0 < n) :
    val x n % 2 ^ k = (x 0).toNat % 2 ^ k := by
  obtain ⟨m, rfl⟩ := exists_eq_succ_of_ne_zero hn.ne'
  have hR : 2 ^ digitSize = 2 ^ (digitSize - k) * 2 ^ k := by rw [← pow_add, Nat.sub_add_cancel hk]
  have h := val_add x 1 m
  rw [val_one, mul_one, add_comm 1 m, hR, ← Nat.mul_assoc] at h
  rw [succ_eq_add_one, h, add_mul_mod_self_right]

theorem truncateDigitsByWord_spec (fresh x : Buffer) {lenX : ℕ} {y : Digit}
    (hlen : 0 < lenX) (hy : y ≠ 0) (hsign : signBit x lenX = false) :
    ∃ q r, truncateDigitsByWord fresh x lenX y = some (q, r) ∧ val q lenX = val x lenX / y.toNat ∧
      r.toNat = val x lenX % y.toNat := by
  have hpos : 0 < y.toNat := Nat.pos_of_ne_zero fun h0 => hy (eq_of_toNat_eq h0)
  unfold truncateDigitsByWord
  by_cases hand : y &&& (y - 1) = 0
  · obtain ⟨hpow, hsub⟩ := isPowerOfTwo_of_and hy hand
    rw [if_pos hand, if_neg hy]
    by_cases hone : y = 1
    · rw [if_pos hone, hone]
      refine ⟨_, _, rfl, ?_, ?_⟩
      · rw [show (1 : Digit).toNat = 1 from rfl, Nat.div_one]
        exact val_congr fun i hi => if_pos hi
      · rw [show (1 : Digit).toNat = 1 from rfl, mod_one]
        rfl
    · rw [if_neg hone]
      have hk : integerLength y.toNat - 1 ≤ digitSize := by
        have hs := size_le.2 y.isLt
        rw [integerLength_natCast]
        exact (sub_le _ _).trans hs
      refine ⟨_, _, rfl, ?_, ?_⟩
      · rw [shiftRightUnaligned_val x fresh hk hlen hsign, ← hpow]
      · rw [toNat_and, hsub, hpow, and_two_pow_sub_one_eq_mod, val_mod_pow x hk hlen]
  · rw [if_neg hand]
    refine ⟨_, _, rfl, ?_⟩
    have h := dotimes_induction (n := lenX) (s := (fresh, (0 : Digit))) (f := fun k t =>
      (update t.1 (lenX - 1 - k) (bigfloor t.2 (x (lenX - 1 - k)) y).1,
        (bigfloor t.2 (x (lenX - 1 - k)) y).2))
      (P := fun i t => WordRounds x y lenX (lenX - i) i t) ⟨by simp, hpos⟩ fun i hi t ht => by
        obtain ⟨k, hk⟩ : ∃ k, lenX - i = k + 1 := ⟨lenX - i - 1, by omega⟩
        rw [hk] at ht
        rw [show lenX - 1 - i = k by omega, show lenX - (i + 1) = k by omega]
        exact ht.step
    rw [Nat.sub_self] at h
    obtain ⟨hval, hlt⟩ := h
    rw [mul_zero, pow_zero, mul_one, val_zero, add_zero] at hval
    have hwin : ∀ q : Buffer, window q 0 = q :=
      fun q => funext fun i => by unfold window; rw [zero_add]
    rw [hwin] at hval
    rw [hval, Nat.add_comm (_ * _), add_mul_div_right _ _ hpos, add_mul_mod_self_right,
      div_eq_of_lt hlt, mod_eq_of_lt hlt, zero_add]
    exact ⟨rfl, rfl⟩

theorem boxInteger_represents {z : ℤ} (h : Fits digitSize 2 z) : (boxInteger z).Represents z := by
  refine normalizeBignum_of_modEq two_pos ?_ h
  have h0 : ash z (-(digitSize * (0 : ℕ))) = z := by
    rw [show (-(digitSize * (0 : ℕ)) : ℤ) = ((0 : ℕ) : ℤ) by simp, ash_ofNat, pow_zero, mul_one]
  have h1 : ash z (-(digitSize * (1 : ℕ))) = z / 2 ^ digitSize := by
    rw [show (-(digitSize * (1 : ℕ)) : ℤ) = -(digitSize : ℤ) by simp, ash_neg]
  rw [val_succ, val_one, h0, h1]
  push_cast
  rw [toNat_ofInt, toNat_ofInt, Int.toNat_of_nonneg (Int.emod_nonneg _ (by positivity)),
    Int.toNat_of_nonneg (Int.emod_nonneg _ (by positivity))]
  norm_num
  rw [Int.modEq_iff_dvd]
  omega

theorem bignumTruncateSingleDigit_represents (fresh : ℕ → Buffer) {y : ℤ}
    (hx : Minimal x) (hy : y ≠ 0) (hlo : -2 ^ digitSize < y) (hhi : y < 2 ^ digitSize) :
    ∃ q r, bignumTruncateSingleDigit fresh x y = some (q, r) ∧ q.Represents (x.toInt.tdiv y) ∧
      r.Represents (x.toInt.tmod y) := by
  obtain ⟨hx', hxval⟩ := abs_spec (fresh 0) hx
  have hword :
      (BitVec.ofInt digitSize (if decide (0 ≤ y) = true then y else -y)).toNat = y.natAbs := by
    have habs : (if decide (0 ≤ y) = true then y else -y) = (y.natAbs : ℤ) := by
      by_cases h : 0 ≤ y
      · rw [if_pos (by simpa using h), natAbs_of_nonneg h]
      · rw [if_neg (by simpa using h)]
        omega
    rw [habs, toNat_ofInt, emod_eq_of_lt (natCast_nonneg _) (by norm_num at *; omega),
      toNat_natCast]
  rw [← signed_tdiv (bignumPlusP_iff x) (q := decide (0 ≤ y)) (by simp),
    ← signed_tmod _ (bignumPlusP_iff x), ← natAbs_abs x.toInt, ← hxval]
  unfold bignumTruncateSingleDigit
  dsimp only
  generalize (if bignumPlusP x = true then x else negateBignumNotFullyNormalized (fresh 0) x) =
    a at *
  generalize BitVec.ofInt digitSize (if decide (0 ≤ y) = true then y else -y) = d at *
  have ha0 : 0 ≤ a.toInt := by rw [hxval]; exact abs_nonneg _
  have hne : d ≠ 0 := by
    intro h
    rw [h] at hword
    exact hy (natAbs_eq_zero.1 hword.symm)
  have haval : val a.ref a.length = a.toInt.natAbs := by have := val_of_nonneg ha0; omega
  obtain ⟨q, r, hqr, hq, hr⟩ := truncateDigitsByWord_spec (fresh 1) a.ref hx'.length_pos hne
    ((sval_nonneg_iff _ _).1 ha0)
  rw [hword, haval] at hq hr
  rw [hqr]
  refine ⟨_, _, rfl, ?_, ?_⟩
  · have hlt : 2 * val q a.length < 2 ^ (digitSize * a.length) := by
      rw [hq, ← haval]
      exact (Nat.mul_le_mul_left 2 (Nat.div_le_self _ _)).trans_lt
        (two_mul_val_lt hx'.length_pos ha0)
    have hm : (LispInteger.bignum ⟨a.length, q⟩).Magnitude (a.toInt.natAbs / y.natAbs) :=
      ⟨hx'.length_pos, hq, hq ▸ hlt⟩
    have h := hm.represents (bignumPlusP x = decide (0 ≤ y))
    split_ifs at h ⊢
    · exact h
    · exact h
  · rw [← hr]
    refine boxInteger_represents ?_
    unfold Fits
    split_ifs <;> norm_num at * <;> omega

/-- The same integer in memory: the words after a bignum are not part of it. -/
def LispInteger.Same : LispInteger → LispInteger → Prop
  | fixnum m, fixnum n => m = n
  | bignum a, bignum b => a.length = b.length ∧ ∀ i < a.length, a.ref i = b.ref i
  | _, _ => False

theorem isFixnum_val (n : Fixnum) : IsFixnum n.val := ⟨n.lower, n.upper⟩

theorem length_le_of_toInt_eq (ha : Minimal a) (hb : Minimal b) (h : a.toInt = b.toInt) :
    a.length ≤ b.length := by
  by_contra hc
  refine ha.minimal b.length hb.length_pos (not_le.1 hc) ?_
  rw [h]
  exact fits_sval digitSize_pos b.ref hb.length_pos

theorem LispInteger.Represents.same {t : LispInteger} {z : ℤ} (hr : r.Represents z)
    (ht : t.Represents z) : r.Same t := by
  cases r with
  | fixnum m =>
    cases t with
    | fixnum n => exact Fixnum.ext (Eq.trans hr (Eq.symm ht))
    | bignum b =>
      obtain ⟨hz, hb⟩ := ht
      have hm : m.val = z := hr
      exact hb.not_fixnum (by rw [hz, ← hm]; exact isFixnum_val m)
  | bignum a =>
    obtain ⟨hza, ha⟩ := hr
    cases t with
    | fixnum n =>
      have hn : n.val = z := ht
      exact ha.not_fixnum (by rw [hza, ← hn]; exact isFixnum_val n)
    | bignum b =>
      obtain ⟨hzb, hb⟩ := ht
      have heq := hza.trans hzb.symm
      have hlen : a.length = b.length :=
        le_antisymm (length_le_of_toInt_eq ha.toMinimal hb.toMinimal heq)
        (length_le_of_toInt_eq hb.toMinimal ha.toMinimal heq.symm)
      refine ⟨hlen, val_injective ?_⟩
      have hmod : (val a.ref a.length : ℤ) ≡
          val b.ref a.length [ZMOD 2 ^ (digitSize * a.length)] := by
        have ha' : (val a.ref a.length : ℤ) ≡ a.toInt [ZMOD 2 ^ (digitSize * a.length)] :=
          sval_modEq a.ref a.length
        have hb' : (val b.ref b.length : ℤ) ≡ b.toInt [ZMOD 2 ^ (digitSize * b.length)] :=
          sval_modEq b.ref b.length
        rw [heq] at ha'
        rw [← hlen] at hb'
        exact ha'.trans hb'.symm
      exact Nat.ModEq.eq_of_lt_of_lt (natCast_modEq_iff.1 (by exact_mod_cast hmod))
        (val_lt _ _) (val_lt _ _)

/-! ## The generic function -/

/-- What a division has to return. -/
def IsTruncation (x y : ℤ) (q r : LispInteger) : Prop :=
  ∃ Q R : ℤ, q.Represents Q ∧ r.Represents R ∧ x = Q * y + R ∧ |R| < |y| ∧ (R = 0 ∨ R.sign = x.sign)

theorem isTruncation_of_represents {x y : ℤ} {q : LispInteger} (hy : y ≠ 0)
    (hq : q.Represents (x.tdiv y)) (hr : r.Represents (x.tmod y)) : IsTruncation x y q r := by
  refine ⟨_, _, hq, hr, (tdiv_mul_add_tmod x y).symm, ?_, ?_⟩
  · rw [abs_eq_natAbs, abs_eq_natAbs, natAbs_tmod]
    exact_mod_cast Nat.mod_lt _ (natAbs_pos.2 hy)
  rcases eq_or_ne (x.tmod y) 0 with h | h
  · exact .inl h
  refine .inr ?_
  rcases le_total 0 x with hx | hx
  · have h0 := tmod_nonneg y hx
    rw [sign_eq_one_of_pos (by omega), sign_eq_one_of_pos]
    exact lt_of_le_of_ne hx fun hx0 => h (by rw [← hx0, zero_tmod])
  have h0 : 0 ≤ (-x).tmod y := tmod_nonneg y (by omega)
  rw [neg_tmod] at h0
  rw [sign_eq_neg_one_of_neg (by omega), sign_eq_neg_one_of_neg]
  exact lt_of_le_of_ne hx fun hx0 => h (by rw [hx0, zero_tmod])

def LispInteger.isBignum : LispInteger → Bool
  | fixnum _ => false
  | bignum _ => true

theorem minimal_makeSmallBignum (n : Fixnum) : Minimal (makeSmallBignum n) :=
  ⟨one_pos, fun k hk hk1 => by
    have : k < 1 := hk1
    omega⟩

theorem toInt_makeSmallBignum (n : Fixnum) : (makeSmallBignum n).toInt = n.val := sval_toWord n

theorem truncate_bignum (fullWidth : Bool) (fresh : ℕ → Buffer) {d : Bignum} (hx : Minimal x)
    (hd : d.Normalized) :
    ∃ q r, (if singleDigitBignumP fullWidth d.toInt then bignumTruncateSingleDigit fresh x d.toInt
        else some (bignumTruncate fresh x d)) = some (q, r) ∧ IsTruncation x.toInt d.toInt q r := by
  have h0 : d.toInt ≠ 0 :=
    fun h => hd.not_fixnum (by rw [h]; unfold IsFixnum nPositiveFixnumBits; norm_num)
  by_cases hs : singleDigitBignumP fullWidth d.toInt = true
  · have hrange : -2 ^ (digitSize - 1) ≤ d.toInt ∧ d.toInt < 2 ^ digitSize := by
      unfold singleDigitBignumP at hs
      cases fullWidth <;> norm_num at * <;> omega
    obtain ⟨q, r, heq, hq, hr⟩ :=
      bignumTruncateSingleDigit_represents fresh hx h0 (by norm_num at *; omega) hrange.2
    rw [if_pos hs]
    exact ⟨q, r, heq, isTruncation_of_represents h0 hq hr⟩
  · have hbig : 2 ^ (digitSize - 1) ≤ |d.toInt| := by
      unfold singleDigitBignumP at hs
      rw [le_abs]
      cases fullWidth <;> norm_num at * <;> omega
    obtain ⟨hq, hr⟩ := bignumTruncate_represents fresh hx hd.toMinimal hbig
    rw [if_neg hs]
    exact ⟨_, _, rfl, isTruncation_of_represents h0 hq hr⟩

theorem truncate_integers (fullWidth : Bool) (fresh : ℕ → Buffer)
    {number divisor : LispInteger} {x y : ℤ}
    (hn : number.Represents x) (hd : divisor.Represents y)
    (hbig : number.isBignum = true ∨ divisor.isBignum = true) (hy : y ≠ 0) :
    (∃ q r, truncateIntegers fullWidth fresh number divisor = some (q, r) ∧ IsTruncation x y q r) ∧
      (∀ a b : Bignum, Minimal a → Minimal b → 2 ^ (digitSize - 1) ≤ |b.toInt| →
        |b.toInt| < 2 ^ digitSize →
        ∃ q r, bignumTruncateSingleDigit fresh a b.toInt = some (q, r) ∧
          (bignumTruncate fresh a b).1.Same q ∧ (bignumTruncate fresh a b).2.Same r) ∧
      ∀ (b : Bignum) (m : ℕ), Minimal b → 0 ≤ b.toInt → b.length = m + 2 → ∀ (f : Buffer) (k : ℕ),
        let truncateY := shifted (fresh 3) b (shiftYForTruncate b)
        let guess := bignumTruncateGuess (truncateY (m + 1)) (truncateY m) (f (k + m + 2)) (f (k + m + 1)) (f (k + m))
        val (window f k) (m + 3) < val truncateY (m + 2) * 2 ^ digitSize →
          guess.toNat = val (window f k) (m + 3) / val truncateY (m + 2) ∨
            guess.toNat = val (window f k) (m + 3) / val truncateY (m + 2) + 1 := by
  refine ⟨?_, fun a b ha hb hlo hhi => ?_, ?_⟩
  · cases number with
    | fixnum n =>
      cases divisor with
      | fixnum d => simp [LispInteger.isBignum] at hbig
      | bignum d =>
        obtain ⟨rfl, hd⟩ := hd
        have hx : n.val = x := hn
        rw [← hx, ← toInt_makeSmallBignum n]
        obtain ⟨q, r, heq, h⟩ := truncate_bignum fullWidth fresh (minimal_makeSmallBignum n) hd
        exact ⟨q, r, heq, h⟩
    | bignum n =>
      obtain ⟨rfl, hn⟩ := hn
      cases divisor with
      | fixnum d =>
        have hd : d.val = y := hd
        have hlo := d.lower
        have hhi := d.upper
        rw [hd] at hlo hhi
        simp only [nPositiveFixnumBits] at hlo hhi
        obtain ⟨q, r, heq, hq, hr⟩ := bignumTruncateSingleDigit_represents fresh hn.toMinimal hy
          (by norm_num at *; omega) (by norm_num at *; omega)
        refine ⟨q, r, ?_, isTruncation_of_represents hy hq hr⟩
        rw [← heq, ← hd]
        rfl
      | bignum d =>
        obtain ⟨rfl, hd⟩ := hd
        obtain ⟨q, r, heq, h⟩ := truncate_bignum fullWidth fresh hn.toMinimal hd
        exact ⟨q, r, heq, h⟩
  · have hb0 : b.toInt ≠ 0 := fun h => by rw [h, abs_zero] at hlo; norm_num at hlo
    obtain ⟨q, r, heq, hq, hr⟩ :=
      bignumTruncateSingleDigit_represents fresh ha hb0 (neg_lt_of_abs_lt hhi)
      (lt_of_abs_lt hhi)
    obtain ⟨hq', hr'⟩ := bignumTruncate_represents fresh ha hb hlo
    exact ⟨q, r, heq, hq'.same hq, hr'.same hr⟩
  · intro b m hb h0 hlen f k truncateY guess hW
    obtain ⟨hle, hge⟩ := (divisor_shifted (fresh 3) hb h0 hlen).1.guess_spec hW
    rcases Nat.lt_or_ge (val (window f k) (m + 3) / val truncateY (m + 2)) guess.toNat
      with hlt | hle'
    · exact .inr (le_antisymm hge hlt)
    · exact .inl (le_antisymm hle' hle)

/-- The least bignum of two words. -/
theorem two_words_represents :
    (⟨2, fun i => if i = 1 then 1 else 0⟩ : Bignum).toInt = 2 ^ 64 ∧
      (⟨2, fun i => if i = 1 then 1 else 0⟩ : Bignum).Normalized := by
  have hval : (⟨2, fun i => if i = 1 then 1 else 0⟩ : Bignum).toInt = 2 ^ 64 := by decide
  refine ⟨hval, ⟨two_pos, fun n h0 h2 => ?_⟩, ?_⟩
  · obtain rfl : n = 1 := by
      have : n < 2 := h2
      omega
    rw [hval]
    decide
  · rw [hval]
    unfold IsFixnum nPositiveFixnumBits
    norm_num

theorem truncate_integers_two_words :
    ∃ q r, truncateIntegers true (fun _ _ => 0) (.bignum ⟨2, fun i => if i = 1 then 1 else 0⟩)
      (.fixnum ⟨7, by decide, by decide⟩) = some (q, r) ∧ IsTruncation (2 ^ 64) 7 q r := by
  have hn : (LispInteger.bignum ⟨2, fun i => if i = 1 then 1 else 0⟩).Represents (2 ^ 64) :=
    two_words_represents
  have hd : (LispInteger.fixnum ⟨7, by decide, by decide⟩).Represents 7 := rfl
  exact (truncate_integers true _ hn hd (.inl rfl) (by decide)).1

end Sbcl.SbBignum
