import Sbcl.Bignum.Logic
import Sbcl.Bignum.TruncateCorrect
import Sbcl.Lib.LimbBits

/-!
# Bignum shifts and logical operations: correctness

* `represents_of_bits` : digits with the bits of a number that fits are normalized to it;
* `logical_represents` : an operation on the bits of two numbers, by digits that are continued by
  their signs;
* `bignumAshiftRight_represents`, `bignumAshiftLeft_represents` : floored quotients and products by
  powers of two;
* `bignumCompare_eq` : the order of integers;
* `ldbBignumToFixnum_eq` : fields of the infinite expansion;
* `bignum_shifts_and_logic` : all of them over normalized bignums.
-/

namespace Sbcl.SbBignum

open Limbs Function

variable {a b : Bignum} {f : Buffer} {len : ℕ} {z : ℤ}

theorem represents_of_bits (hlen : 0 < len) (hz : Fits digitSize len z)
    (h : ∀ k < len, ∀ j < digitSize, z.testBit (digitSize * k + j) = (f k).getLsbD j) :
    (normalizeBignum f len).Represents z := by
  rw [← sval_of_testBit digitSize_pos hlen hz h]
  exact normalizeBignum_spec f hlen

/-- The infinite expansion of a bignum. -/
abbrev extDigit (a : Bignum) : Buffer := ext a.ref a.length

variable {j : ℕ}

theorem testBit_toInt (a : Bignum) (k : ℕ) (hj : j < digitSize) :
    a.toInt.testBit (digitSize * k + j) = (extDigit a k).getLsbD j := testBit_sval a.ref a.length hj

theorem getLsbD_signLimb (s : Bool) (hj : j < digitSize) :
    (signLimb digitSize s).getLsbD j = s := by
  cases s <;> simp [signLimb, hj]

variable {k : ℕ}

theorem extDigit_of_lt (hk : k < a.length) : extDigit a k = a.ref k := ext_of_lt hk

theorem extDigit_of_plus (h : 0 ≤ a.toInt) (hk : a.length ≤ k) : extDigit a k = 0 := by
  rw [extDigit, ext_of_le hk, (sval_nonneg_iff a.ref a.length).1 h]
  rfl

theorem extDigit_of_minus (h : a.toInt < 0) (hk : a.length ≤ k) :
    extDigit a k = BitVec.allOnes digitSize := by
  have hs : signBit a.ref a.length = true := by
    by_contra hc
    exact h.not_ge ((sval_nonneg_iff a.ref a.length).2 (by simpa using hc))
  rw [extDigit, ext_of_le hk, hs]
  rfl

theorem signDigit_eq_ext (a : Bignum) (hk : a.length ≤ k) :
    signDigit a.ref a.length = extDigit a k := by
  rw [signDigit_eq, extDigit, ext_of_le hk]

theorem fits_toInt (ha : 0 < a.length) : Fits digitSize a.length a.toInt :=
  fits_sval digitSize_pos a.ref ha

/-! ## Logical operations -/

theorem logicalLoop_eq (op : Digit → Digit → Digit) (x y : Buffer) (n : ℕ) (res : Buffer) :
    logicalLoop op x y n res = fun i => if i < n then op (x i) (y i) else res i := by
  have h := dotimes_update n 0 (fun i => op (x i) (y i)) res
  simpa [logicalLoop] using h

variable {m n : ℕ}

theorem restLoop_eq (digit : ℕ → Digit) (hmn : m ≤ n) (res : Buffer) :
    restLoop digit m n res = fun i => if m ≤ i ∧ i < n then digit i else res i := by
  have h := dotimes_update (n - m) m (fun j => digit (m + j)) res
  rw [Nat.add_sub_cancel' hmn] at h
  rw [restLoop, h]
  funext i
  split_ifs with hi
  · rw [Nat.add_sub_cancel' hi.1]
  · rfl

theorem loops_eq (op : Digit → Digit → Digit) (digit : ℕ → Digit) (x y : Buffer)
    (hmn : m ≤ n) (hk : k < n)
    (res : Buffer) : restLoop digit m n (logicalLoop op x y m res) k =
      if k < m then op (x k) (y k) else digit k := by
  rw [restLoop_eq digit hmn, logicalLoop_eq]
  by_cases hkm : k < m
  · simp [hkm]
  · simp [hkm, not_lt.1 hkm, hk]

/-- An operation on digits and one on integers that do the same to each bit. -/
structure Bitwise (op : Digit → Digit → Digit) (opInt : ℤ → ℤ → ℤ) (g : Bool → Bool → Bool) :
    Prop where
  getLsbD : ∀ x y j, j < digitSize → (op x y).getLsbD j = g (x.getLsbD j) (y.getLsbD j)
  testBit : ∀ x y i, (opInt x y).testBit i = g (x.testBit i) (y.testBit i)

theorem bitwise_and : Bitwise (· &&& ·) logand and :=
  ⟨fun _ _ _ _ => BitVec.getLsbD_and, fun x y i => Int.testBit_land x y i⟩

theorem bitwise_or : Bitwise (· ||| ·) logior or :=
  ⟨fun _ _ _ _ => BitVec.getLsbD_or, fun x y i => Int.testBit_lor x y i⟩

theorem bitwise_xor : Bitwise (· ^^^ ·) logxor xor :=
  ⟨fun _ _ _ _ => BitVec.getLsbD_xor, fun x y i => Int.testBit_lxor x y i⟩

theorem logical_represents {op : Digit → Digit → Digit} {opInt : ℤ → ℤ → ℤ} {g : Bool → Bool → Bool}
    (hop : Bitwise op opInt g) (hlen : 0 < len) (hfits : Fits digitSize len (opInt a.toInt b.toInt))
    (hf : ∀ k < len, f k = op (extDigit a k) (extDigit b k)) :
    (normalizeBignum f len).Represents (opInt a.toInt b.toInt) := by
  refine represents_of_bits hlen hfits fun k hk j hj => ?_
  rw [hop.testBit, testBit_toInt a k hj, testBit_toInt b k hj, hf k hk, hop.getLsbD _ _ j hj]

theorem logandShorterPositive_represents (fresh : Buffer) (ha : 0 < a.length)
    (hle : a.length ≤ b.length) (hfits : Fits digitSize a.length (logand a.toInt b.toInt)) :
    (logandShorterPositive a.ref a.length b.ref fresh).Represents (logand a.toInt b.toInt) := by
  refine logical_represents bitwise_and ha hfits fun k hk => ?_
  rw [logicalLoop_eq, extDigit_of_lt hk, extDigit_of_lt (hk.trans_le hle)]
  exact if_pos hk

theorem logandShorterNegative_represents (fresh : Buffer) (ha : 0 < a.length)
    (hle : a.length ≤ b.length) (hneg : a.toInt < 0)
    (hfits : Fits digitSize b.length (logand a.toInt b.toInt)) :
    (logandShorterNegative a.ref a.length b.ref b.length fresh).Represents
      (logand a.toInt b.toInt) := by
  refine logical_represents bitwise_and (ha.trans_le hle) hfits fun k hk => ?_
  rw [loops_eq _ _ _ _ hle hk, extDigit_of_lt (a := b) hk]
  split_ifs with hka
  · rw [extDigit_of_lt hka]
  · rw [extDigit_of_minus hneg (not_lt.1 hka), BitVec.allOnes_and]

theorem logiorShorterPositive_represents (fresh : Buffer) (ha : 0 < a.length)
    (hle : a.length ≤ b.length)
    (hplus : 0 ≤ a.toInt ∨ a.length = b.length)
    (hfits : Fits digitSize b.length (logior a.toInt b.toInt)) :
    (logiorShorterPositive a.ref a.length b.ref b.length fresh).Represents
      (logior a.toInt b.toInt) := by
  refine logical_represents bitwise_or (ha.trans_le hle) hfits fun k hk => ?_
  rw [loops_eq _ _ _ _ hle hk, extDigit_of_lt (a := b) hk]
  split_ifs with hka
  · rw [extDigit_of_lt hka]
  rcases hplus with hplus | heq
  · rw [extDigit_of_plus hplus (not_lt.1 hka)]
    exact BitVec.zero_or.symm
  · exact absurd (heq ▸ hk) hka

theorem logiorShorterNegative_represents (fresh : Buffer) (ha : 0 < a.length)
    (hle : a.length ≤ b.length) (hneg : a.toInt < 0)
    (hfits : Fits digitSize b.length (logior a.toInt b.toInt)) :
    (logiorShorterNegative a.ref a.length b.ref b.length fresh).Represents
      (logior a.toInt b.toInt) := by
  refine logical_represents bitwise_or (ha.trans_le hle) hfits fun k hk => ?_
  rw [loops_eq _ _ _ _ hle hk]
  split_ifs with hka
  · rw [extDigit_of_lt hka, extDigit_of_lt hk]
  · rw [signDigit_eq_ext a (not_lt.1 hka), extDigit_of_minus hneg (not_lt.1 hka), BitVec.allOnes_or]

theorem bignumLogicalXorAux_represents (fresh : Buffer) (ha : 0 < a.length)
    (hle : a.length ≤ b.length) (hfits : Fits digitSize b.length (logxor a.toInt b.toInt)) :
    (bignumLogicalXorAux a.ref a.length b.ref b.length fresh).Represents
      (logxor a.toInt b.toInt) := by
  refine logical_represents bitwise_xor (ha.trans_le hle) hfits fun k hk => ?_
  rw [loops_eq _ _ _ _ hle hk, extDigit_of_lt (a := b) hk]
  split_ifs with hka
  · rw [extDigit_of_lt hka]
  · rw [signDigit_eq_ext a (not_lt.1 hka)]

theorem intFits (h : Fits digitSize len z) (hlen : 0 < len) :
    IntBits.Fits (digitSize * len - 1) z :=
  (fits_iff digitSize_pos hlen).1 h

variable {x y : ℤ}

theorem fits_logand (hlen : 0 < len) (hx : Fits digitSize len x) (hy : Fits digitSize len y) :
    Fits digitSize len (logand x y) :=
  (fits_iff digitSize_pos hlen).2 ((intFits hx hlen).land (intFits hy hlen))

theorem fits_logior (hlen : 0 < len) (hx : Fits digitSize len x) (hy : Fits digitSize len y) :
    Fits digitSize len (logior x y) :=
  (fits_iff digitSize_pos hlen).2 ((intFits hx hlen).lor (intFits hy hlen))

theorem fits_logxor (hlen : 0 < len) (hx : Fits digitSize len x) (hy : Fits digitSize len y) :
    Fits digitSize len (logxor x y) :=
  (fits_iff digitSize_pos hlen).2 ((intFits hx hlen).lxor (intFits hy hlen))

theorem fits_logand_of_nonneg (y : ℤ) (hx : Fits digitSize len x) (h0 : 0 ≤ x) :
    Fits digitSize len (logand x y) := by
  have hnonneg : 0 ≤ logand x y := by
    by_contra hc
    exact ((IntBits.land_neg_iff x y).1 (not_le.1 hc)).1.not_ge h0
  have hle : logand x y ≤ x := IntBits.land_le_left (.inl h0)
  have hpos : (0 : ℤ) < 2 ^ (digitSize * len) := by positivity
  exact ⟨by linarith, by linarith [hx.2]⟩

theorem bignum0OrPlusp_iff (a : Bignum) : bignum0OrPlusp a.ref a.length = true ↔ 0 ≤ a.toInt :=
  bignumPlusP_iff a

theorem bignumLogicalAnd_of_lt (fresh : Buffer) (ha : 0 < a.length) (hlt : a.length < b.length) :
    (if bignum0OrPlusp a.ref a.length then logandShorterPositive a.ref a.length b.ref fresh
      else logandShorterNegative a.ref a.length b.ref b.length fresh).Represents
        (logand a.toInt b.toInt) := by
  split_ifs with hp
  · exact logandShorterPositive_represents fresh ha hlt.le
      (fits_logand_of_nonneg _ (fits_toInt ha) ((bignum0OrPlusp_iff a).1 hp))
  · have hneg : a.toInt < 0 := not_le.1 fun h => hp ((bignum0OrPlusp_iff a).2 h)
    exact logandShorterNegative_represents fresh ha hlt.le hneg
      (fits_logand (ha.trans hlt) ((fits_toInt ha).mono hlt.le) (fits_toInt (ha.trans hlt)))

theorem bignumLogicalAnd_represents (fresh : Buffer) (ha : 0 < a.length) (hb : 0 < b.length) :
    (bignumLogicalAnd fresh a b).Represents (logand a.toInt b.toInt) := by
  unfold bignumLogicalAnd
  rcases lt_trichotomy a.length b.length with hlt | heq | hgt
  · rw [if_pos hlt]
    exact bignumLogicalAnd_of_lt fresh ha hlt
  · rw [if_neg heq.not_lt, if_neg heq.not_gt]
    exact logandShorterPositive_represents fresh ha heq.le
      (fits_logand ha (fits_toInt ha) (heq ▸ fits_toInt hb))
  · rw [if_neg hgt.not_gt, if_pos hgt,
      show logand a.toInt b.toInt = logand b.toInt a.toInt from IntBits.land_comm _ _]
    exact bignumLogicalAnd_of_lt fresh hb hgt

theorem bignumLogicalIor_of_lt (fresh : Buffer) (ha : 0 < a.length) (hlt : a.length < b.length) :
    (if bignum0OrPlusp a.ref a.length then logiorShorterPositive a.ref a.length b.ref b.length fresh
      else logiorShorterNegative a.ref a.length b.ref b.length fresh).Represents
        (logior a.toInt b.toInt) := by
  have hfits := fits_logior (ha.trans hlt) ((fits_toInt ha).mono hlt.le) (fits_toInt (ha.trans hlt))
  split_ifs with hp
  · exact logiorShorterPositive_represents fresh ha hlt.le
      (.inl ((bignum0OrPlusp_iff a).1 hp)) hfits
  · have hneg : a.toInt < 0 := not_le.1 fun h => hp ((bignum0OrPlusp_iff a).2 h)
    exact logiorShorterNegative_represents fresh ha hlt.le hneg hfits

theorem bignumLogicalIor_represents (fresh : Buffer) (ha : 0 < a.length) (hb : 0 < b.length) :
    (bignumLogicalIor fresh a b).Represents (logior a.toInt b.toInt) := by
  unfold bignumLogicalIor
  rcases lt_trichotomy a.length b.length with hlt | heq | hgt
  · rw [if_pos hlt]
    exact bignumLogicalIor_of_lt fresh ha hlt
  · rw [if_neg heq.not_lt, if_neg heq.not_gt]
    exact logiorShorterPositive_represents fresh ha heq.le (.inr heq)
      (fits_logior hb ((fits_toInt ha).mono heq.le) (fits_toInt hb))
  · rw [if_neg hgt.not_gt, if_pos hgt,
      show logior a.toInt b.toInt = logior b.toInt a.toInt from IntBits.lor_comm _ _]
    exact bignumLogicalIor_of_lt fresh hb hgt

theorem bignumLogicalXor_represents (fresh : Buffer) (ha : 0 < a.length) (hb : 0 < b.length) :
    (bignumLogicalXor fresh a b).Represents (logxor a.toInt b.toInt) := by
  unfold bignumLogicalXor
  split_ifs with hlt
  · exact bignumLogicalXorAux_represents fresh ha hlt.le
      (fits_logxor hb ((fits_toInt ha).mono hlt.le) (fits_toInt hb))
  · have hle := not_lt.1 hlt
    rw [show logxor a.toInt b.toInt = logxor b.toInt a.toInt from IntBits.lxor_comm _ _]
    exact bignumLogicalXorAux_represents fresh hb hle
      (fits_logxor ha ((fits_toInt hb).mono hle) (fits_toInt ha))

theorem fits_lognot_iff (hlen : 0 < len) : Fits digitSize len (lognot z) ↔
    Fits digitSize len z := by
  have hpow : (2 : ℤ) ^ (digitSize * len) = 2 * 2 ^ (digitSize * len - 1) := by
    rw [← pow_succ', Nat.sub_add_cancel (Nat.mul_pos digitSize_pos hlen)]
  unfold Fits
  rw [lognot, IntBits.lnot_eq, hpow]
  omega

theorem bignumLogicalNot_represents (fresh : Buffer) (ha : a.Normalized) :
    (LispInteger.bignum (bignumLogicalNot fresh a)).Represents (lognot a.toInt) := by
  have hpos := ha.length_pos
  have hval : (bignumLogicalNot fresh a).toInt = lognot a.toInt := by
    refine sval_of_testBit digitSize_pos hpos ((fits_lognot_iff hpos).2 (fits_toInt hpos))
      fun k hk j hj => ?_
    have hloop := dotimes_update a.length 0 (fun i => lognotDigit (a.ref i)) fresh
    have hdigit : (bignumLogicalNot fresh a).ref k = ~~~a.ref k := by
      unfold bignumLogicalNot
      simp only [Nat.zero_add] at hloop
      rw [hloop]
      exact if_pos ⟨Nat.zero_le k, hk⟩
    rw [hdigit, lognot, Int.testBit_lnot, testBit_toInt a k hj, extDigit_of_lt (a := a) hk,
      BitVec.getLsbD_not]
    simp [hj]
  refine ⟨hval, ⟨hpos, fun n hn hlt => ?_⟩, ?_⟩
  · rw [hval, fits_lognot_iff hn]
    exact ha.minimal n hn hlt
  rw [hval]
  intro hfix
  refine ha.not_fixnum ?_
  unfold IsFixnum at hfix ⊢
  rw [lognot, IntBits.lnot_eq] at hfix
  omega

/-! ## Comparison -/

theorem compareDigits_swap (x y : Buffer) (n : ℕ) : compareDigits y x n = -compareDigits x y n := by
  induction n with
  | zero => rfl
  | succ n ih =>
    unfold compareDigits
    rcases lt_trichotomy (x n) (y n) with h | h | h
    · rw [if_pos h, if_neg h.not_gt, if_pos h]
      rfl
    · rw [h, if_neg (lt_irrefl _), if_neg (lt_irrefl _), if_neg (lt_irrefl _),
        if_neg (lt_irrefl _), ih]
    · rw [if_neg h.not_gt, if_pos h, if_pos h]

theorem compareDigits_range (x y : Buffer) (n : ℕ) : -1 ≤ compareDigits x y n ∧
    compareDigits x y n ≤ 1 := by
  induction n with
  | zero => exact ⟨by simp [compareDigits], by simp [compareDigits]⟩
  | succ n ih =>
    unfold compareDigits
    split_ifs
    · decide
    · decide
    · exact ih

theorem sign_of_gt (h : y < x) : Int.sign (x - y) = 1 := Int.sign_eq_one_of_pos (sub_pos.2 h)

theorem sign_of_lt (h : x < y) : Int.sign (x - y) = -1 := Int.sign_eq_neg_one_of_neg (sub_neg.2 h)

theorem compareDigits_eq (x y : Buffer) (n : ℕ) :
    compareDigits x y n = Int.sign ((val x n : ℤ) - val y n) := by
  have hrange := compareDigits_range x y n
  have hpos := compareDigits_pos_iff x y n
  have hneg := compareDigits_pos_iff y x n
  rw [compareDigits_swap] at hneg
  rcases lt_trichotomy (val x n) (val y n) with h | h | h
  · rw [sign_of_lt (Nat.cast_lt.2 h)]
    omega
  · rw [h, sub_self, Int.sign_zero]
    omega
  · rw [sign_of_gt (Nat.cast_lt.2 h)]
    omega

theorem lt_of_length_lt_neg (ha : Minimal a) (hb : Minimal b) (ha0 : a.toInt < 0)
    (h : b.length < a.length) : a.toInt < b.toInt := by
  have hnot := ha.minimal b.length hb.length_pos h
  have hfits := fits_toInt hb.length_pos
  have h0 : (0 : ℤ) < 2 ^ (digitSize * b.length) := by positivity
  by_contra hle
  exact hnot ⟨by linarith [hfits.1], by linarith⟩

theorem bignumCompare_eq (ha : Minimal a) (hb : Minimal b) :
    bignumCompare a b = Int.sign (a.toInt - b.toInt) := by
  have hpa := bignum0OrPlusp_iff a
  have hpb := bignum0OrPlusp_iff b
  unfold bignumCompare
  dsimp only
  split_ifs with hsigns hplus hlen hlonger hplus hplus
  · have hbneg : b.toInt < 0 := not_le.1 fun h => hsigns (hplus.trans (hpb.2 h).symm)
    exact (sign_of_gt (hbneg.trans_le (hpa.1 hplus))).symm
  · have haneg : a.toInt < 0 := not_le.1 fun h => hplus (hpa.2 h)
    have hb0 : 0 ≤ b.toInt := hpb.1 (by simpa [hplus] using hsigns)
    exact (sign_of_lt (haneg.trans_le hb0)).symm
  · have hsign : signBit a.ref a.length = signBit b.ref b.length := by
      have h := not_not.1 hsigns
      simpa [bignum0OrPlusp, digit0OrPlusp, signBit] using h
    rw [compareDigits_eq, Bignum.toInt, Bignum.toInt, sval, sval, hsign, hlen]
    congr 1
    ring
  · exact (sign_of_gt (lt_of_length_lt ha hb (hpa.1 hplus) hlonger)).symm
  · have haneg : a.toInt < 0 := not_le.1 fun h => hplus (hpa.2 h)
    exact (sign_of_lt (lt_of_length_lt_neg ha hb haneg hlonger)).symm
  · have hb0 : 0 ≤ b.toInt := hpb.1 ((not_not.1 hsigns) ▸ hplus)
    exact (sign_of_lt (lt_of_length_lt hb ha hb0 (lt_of_le_of_ne (not_lt.1 hlonger) hlen))).symm
  · have hbneg : b.toInt < 0 := not_le.1 fun h => hplus ((not_not.1 hsigns).trans (hpb.2 h))
    exact (sign_of_gt
      (lt_of_length_lt_neg hb ha hbneg (lt_of_le_of_ne (not_lt.1 hlonger) hlen))).symm

/-! ## Shifts to the right -/

theorem fits_ediv {c : ℕ} (hlen : 0 < len) (hy : IntBits.Fits m y) (hm : m < digitSize * len + c) :
    Fits digitSize len (y / 2 ^ c) := by
  rw [fits_iff digitSize_pos hlen, IntBits.fits_iff, Int.ediv_ediv_of_nonneg (by positivity),
    ← pow_add]
  exact (IntBits.fits_iff _ y).1 (hy.mono (by omega))

variable {s : ℕ}

theorem testBit_shifted (a : Bignum) (d k : ℕ) (hs : s < digitSize) (hj : j < digitSize) :
    (a.toInt / 2 ^ (digitSize * d + s)).testBit (digitSize * k + j) =
      if s + j < digitSize then (extDigit a (d + k)).getLsbD (s + j)
        else (extDigit a (d + k + 1)).getLsbD (s + j - digitSize) := by
  rw [IntBits.testBit_ediv]
  split_ifs with h
  · rw [show digitSize * k + j + (digitSize * d + s) = digitSize * (d + k) + (s + j) by ring]
    exact testBit_toInt a _ h
  rw [show digitSize * k + j + (digitSize * d + s) =
    digitSize * (d + k + 1) + (s + j - digitSize) by
    rw [Nat.mul_add, Nat.mul_add]
    omega]
  exact testBit_toInt a _ (by omega)

theorem signedDigit_represents {digit : Digit} (hz : Fits digitSize 1 z)
    (h : ∀ j < digitSize, z.testBit j = digit.getLsbD j) : (signedDigit digit).Represents z := by
  refine represents_of_bits one_pos hz fun k hk j hj => ?_
  obtain rfl : k = 0 := by omega
  rw [Nat.mul_zero, Nat.zero_add]
  exact h j hj

theorem signDigit_represents {count : ℕ} (ha : 0 < a.length) (h : a.length ≤ count / digitSize) :
    (signedDigit (signDigit a.ref a.length)).Represents (a.toInt / 2 ^ count) := by
  have hs := Nat.mod_lt count digitSize_pos
  have hcount := Nat.div_add_mod count digitSize
  have hle : digitSize * a.length ≤ count := (Nat.mul_le_mul_left _ h).trans (by omega)
  refine signedDigit_represents (fits_ediv one_pos (intFits (fits_toInt ha) ha) (by omega))
    fun j hj => ?_
  have hbit := testBit_shifted a (count / digitSize) 0 hs hj
  rw [hcount, Nat.mul_zero, Nat.zero_add] at hbit
  rw [hbit, signDigit_eq, getLsbD_signLimb _ hj]
  split_ifs with hlt
  · rw [extDigit, ext_of_le (by omega), getLsbD_signLimb _ hlt]
  · rw [extDigit, ext_of_le (by omega), getLsbD_signLimb _ (by omega)]

theorem fits_bignumBufferIntegerLength (ha : 0 < a.length) :
    IntBits.Fits (bignumBufferIntegerLength a.ref a.length) a.toInt := by
  obtain ⟨n, hn⟩ := Nat.exists_eq_succ_of_ne_zero ha.ne'
  have hval : a.toInt = val a.ref n + (a.ref n).toInt * 2 ^ (digitSize * n) := by
    rw [Bignum.toInt, hn]
    exact sval_succ a.ref n
  have hlt : (val a.ref n : ℤ) < 2 ^ (digitSize * n) := by exact_mod_cast val_lt a.ref n
  obtain ⟨hlow, hhigh⟩ := fits_integerLength (a.ref n).toInt
  have hpos : (0 : ℤ) < 2 ^ (digitSize * n) := by positivity
  unfold bignumBufferIntegerLength
  rw [hn, Nat.succ_sub_one, hval, Nat.mul_comm n, IntBits.Fits, pow_add]
  constructor
  · have := mul_le_mul_of_nonneg_right hlow hpos.le
    linarith
  · have := mul_le_mul_of_nonneg_right (Int.add_one_le_of_lt hhigh) hpos.le
    linarith

theorem getLsbD_ashIntoWordMod (a : Bignum) (count : ℕ) (hj : j < digitSize) :
    (ashIntoWordMod a count).getLsbD j = (a.toInt / 2 ^ count).testBit j := by
  have hs := Nat.mod_lt count digitSize_pos
  have hbit := testBit_shifted a (count / digitSize) 0 hs hj
  rw [Nat.div_add_mod, Nat.mul_zero, Nat.zero_add] at hbit
  rw [hbit]
  unfold ashIntoWordMod ashRightTwoWords
  rw [BitVec.getLsbD_extractLsb', BitVec.getLsbD_append, bignumDigit_eq]
  simp only [hj, decide_true, Bool.true_and, Nat.add_zero]

theorem getLsbD_shiftedRight (x y : Digit) (hs : s < digitSize) (hj : j < digitSize) :
    (x >>> s ||| y <<< (digitSize - s)).getLsbD j =
      if s + j < digitSize then x.getLsbD (s + j) else y.getLsbD (s + j - digitSize) := by
  rw [BitVec.getLsbD_or, BitVec.getLsbD_ushiftRight, BitVec.getLsbD_shiftLeft]
  split_ifs with h
  · simp [hj, show j < digitSize - s by omega]
  · have hx : x.getLsbD (s + j) = false := BitVec.getLsbD_of_ge _ _ (not_lt.1 h)
    simp only [hx, Bool.false_or]
    simp [hj, show ¬j < digitSize - s by omega,
      show j - (digitSize - s) = s + j - digitSize by omega]

theorem getLsbD_ashr (x : Digit) (hs : s < digitSize) (hj : j < digitSize) :
    (ashr x s).getLsbD j =
      if s + j < digitSize then x.getLsbD (s + j) else (signLimb digitSize x.msb).getLsbD
        (s + j - digitSize) := by
  rw [ashr, BitVec.getLsbD_sshiftRight]
  split_ifs with h
  · simp [hj, h]
  · rw [getLsbD_signLimb _ (by omega)]
    simp [hj]

theorem shiftRightUnaligned_digit (f : Buffer) (s n : ℕ) (res : Buffer) (k : ℕ) :
    shiftRightUnaligned f s (n + 1) res k = if k = n then ashr (f n) s
      else if k < n then f k >>> s ||| f (k + 1) <<< (digitSize - s) else res k := by
  have hloop := dotimes_update n 0 (fun j => f j >>> s ||| f (j + 1) <<< (digitSize - s)) res
  simp only [Nat.zero_add, Nat.zero_le, true_and, Nat.sub_zero] at hloop
  unfold shiftRightUnaligned
  simp only [Nat.add_sub_cancel]
  rw [hloop]
  by_cases hk : k = n
  · rw [hk, update_self, if_pos rfl]
  · rw [update_of_ne hk, if_neg hk]

variable {d : ℕ}

theorem shiftRightUnaligned_represents (fresh : Buffer) (hs : s < digitSize)
    (hlen : a.length = d + (n + 1)) :
    (normalizeBignum (shiftRightUnaligned (window a.ref d) s (n + 1) fresh) (n + 1)).Represents
      (a.toInt / 2 ^ (digitSize * d + s)) := by
  have ha : 0 < a.length := by omega
  refine represents_of_bits n.succ_pos (fits_ediv n.succ_pos (intFits (fits_toInt ha) ha) ?_)
    fun k hk j hj => ?_
  · have : 0 < digitSize * a.length := Nat.mul_pos digitSize_pos ha
    rw [hlen, Nat.mul_add] at this ⊢
    omega
  rw [testBit_shifted a d k hs hj, shiftRightUnaligned_digit]
  by_cases hkn : k = n
  · subst hkn
    rw [if_pos (c := k = k) rfl, getLsbD_ashr _ hs hj, extDigit_of_lt (by omega), extDigit,
      ext_of_le (by omega), signBit, show a.length - 1 = d + k by omega]
    rfl
  · rw [if_neg hkn, if_pos (c := k < n) (by omega), getLsbD_shiftedRight _ _ hs hj,
      extDigit_of_lt (by omega), extDigit_of_lt (by omega)]
    rfl

theorem bignumAshiftRightDigits_represents (fresh : Buffer) (hd : d < a.length) :
    (bignumAshiftRightDigits fresh a d).Represents (a.toInt / 2 ^ (digitSize * d)) := by
  have ha : 0 < a.length := by omega
  refine represents_of_bits (by omega) (fits_ediv (by omega) (intFits (fits_toInt ha) ha) ?_)
    fun k hk j hj => ?_
  · have : 0 < digitSize * a.length := Nat.mul_pos digitSize_pos ha
    have hsum : digitSize * (a.length - d) + digitSize * d = digitSize * a.length := by
      rw [← Nat.mul_add, Nat.sub_add_cancel hd.le]
    omega
  · have hbit := testBit_shifted a d k digitSize_pos hj
    rw [Nat.add_zero, Nat.zero_add, if_pos hj] at hbit
    rw [hbit, extDigit_of_lt (by omega), bignumReplace, if_pos hk]
    rfl

theorem bignumAshiftRight_represents (twoWords : Bool) (fresh : Buffer) (ha : 0 < a.length)
    (hlen : a.length ≤ maximumBignumLength) (count : ℕ) :
    ∃ r, bignumAshiftRight twoWords fresh a count = some r ∧
      r.Represents (a.toInt / 2 ^ count) := by
  have hcount := Nat.div_add_mod count digitSize
  have hs := Nat.mod_lt count digitSize_pos
  unfold bignumAshiftRight
  dsimp only
  split_ifs with hfix hdigits hwords haligned hlong
  · exact ⟨_, rfl, signDigit_represents ha hdigits⟩
  · refine ⟨_, rfl,
      signedDigit_represents (fits_ediv one_pos (fits_bignumBufferIntegerLength ha) ?_) fun j hj =>
      (getLsbD_ashIntoWordMod a count hj).symm⟩
    have := hwords.2.2
    simp only [digitSize] at this ⊢
    omega
  · refine ⟨_, rfl, ?_⟩
    have h := bignumAshiftRightDigits_represents fresh (not_le.1 hdigits)
    rwa [show digitSize * (count / digitSize) = count by omega] at h
  · refine ⟨_, rfl, ?_⟩
    obtain ⟨n, hn⟩ : ∃ n, a.length = count / digitSize + (n + 1) :=
      ⟨a.length - count / digitSize - 1, by omega⟩
    have h := shiftRightUnaligned_represents fresh hs hn
    rw [hcount] at h
    rwa [show a.length - count / digitSize = n + 1 by omega]
  · refine ⟨_, rfl, signDigit_represents ha ?_⟩
    have hbig : 2 ^ nPositiveFixnumBits / digitSize ≤ count / digitSize :=
      Nat.div_le_div_right (not_lt.1 hfix)
    exact hlen.trans
      ((show maximumBignumLength ≤ 2 ^ nPositiveFixnumBits / digitSize by decide).trans hbig)
  · exfalso
    have : maximumBignumLength < 2 ^ nPositiveFixnumBits := by decide
    omega

/-! ## Shifts to the left -/

theorem fits_mul {c : ℕ} (hlen : 0 < len) (hy : IntBits.Fits m y) (hm : m + c < digitSize * len) :
    Fits digitSize len (y * 2 ^ c) := by
  have hpos : (0 : ℤ) < 2 ^ c := by positivity
  have hfits : IntBits.Fits (m + c) (y * 2 ^ c) := by
    rw [IntBits.Fits, pow_add, ← neg_mul]
    exact ⟨mul_le_mul_of_nonneg_right hy.1 hpos.le, mul_lt_mul_of_pos_right hy.2 hpos⟩
  exact (fits_iff digitSize_pos hlen).2 (hfits.mono (by omega))

/-- A place of a product: zero below the shift, and in one of two digits above it. -/
theorem testBit_product (a : Bignum) (d k : ℕ) (hs : s < digitSize) (hj : j < digitSize) :
    (a.toInt * 2 ^ (digitSize * d + s)).testBit (digitSize * (d + k) + j) =
      if s ≤ j then (extDigit a k).getLsbD (j - s)
      else if k = 0 then false else (extDigit a (k - 1)).getLsbD (digitSize - s + j) := by
  rw [IntBits.testBit_mul]
  split_ifs with h hk
  · have hplace : digitSize * (d + k) + j - (digitSize * d + s) = digitSize * k + (j - s) := by
      rw [Nat.mul_add]
      omega
    rw [hplace, testBit_toInt a k (by omega), decide_eq_true (by rw [Nat.mul_add]; omega),
      Bool.true_and]
  · rw [hk, Nat.add_zero, decide_eq_false (by omega), Bool.false_and]
  obtain ⟨k, rfl⟩ := Nat.exists_eq_succ_of_ne_zero hk
  have hplace : digitSize * (d + (k + 1)) + j - (digitSize * d + s) =
      digitSize * k + (digitSize - s + j) := by
    rw [Nat.mul_add, Nat.mul_add]
    omega
  have hle : digitSize * d + s ≤ digitSize * (d + (k + 1)) + j := by
    rw [Nat.mul_add, Nat.mul_add]
    omega
  rw [Nat.succ_eq_add_one, hplace, testBit_toInt a k (by omega), decide_eq_true hle, Bool.true_and,
    Nat.add_sub_cancel]

theorem testBit_product_low (z : ℤ) (s : ℕ) (hk : k < d) (hj : j < digitSize) :
    (z * 2 ^ (digitSize * d + s)).testBit (digitSize * k + j) = false := by
  have hle : digitSize * (k + 1) ≤ digitSize * d := Nat.mul_le_mul_left _ hk
  rw [Nat.mul_add] at hle
  rw [IntBits.testBit_mul, decide_eq_false (by omega), Bool.false_and]

theorem getLsbD_shiftedLeft (x y : Digit) (hs : s < digitSize) (hj : j < digitSize) :
    (x >>> (digitSize - s) ||| y <<< s).getLsbD j =
      if s ≤ j then y.getLsbD (j - s) else x.getLsbD (digitSize - s + j) := by
  rw [BitVec.getLsbD_or, BitVec.getLsbD_ushiftRight, BitVec.getLsbD_shiftLeft]
  split_ifs with h
  · have hx : x.getLsbD (digitSize - s + j) = false :=
      BitVec.getLsbD_of_ge _ _ (by simp only [digitSize] at *; omega)
    simp [hx, hj, h]
  · simp [hj, not_le.1 h]

theorem ashiftLeftUnalignedDigits_digit (f : Buffer) (d s n : ℕ) (res : Buffer) (i : ℕ) :
    ashiftLeftUnalignedDigits f d s (d + (n + 1) + 1) res i =
      if i = d + (n + 1) then ashr (f n) (digitSize - s)
      else if i = d then f 0 <<< s
      else if d < i ∧ i < d + (n + 1) then f (i - d - 1) >>> (digitSize - s) ||| f (i - d) <<< s
      else res i := by
  have hloop := dotimes_update n (d + 1) (fun i => f i >>> (digitSize - s) ||| f (i + 1) <<< s) res
  unfold ashiftLeftUnalignedDigits
  simp only [Nat.add_sub_cancel]
  rw [show d + (n + 1) - (d + 1) = n by omega, hloop]
  by_cases hlast : i = d + (n + 1)
  · rw [hlast, update_self, if_pos rfl]
  rw [update_of_ne hlast, if_neg hlast]
  by_cases hfirst : i = d
  · rw [hfirst, update_self, if_pos rfl]
  rw [update_of_ne hfirst, if_neg hfirst]
  by_cases hmid : d < i ∧ i < d + (n + 1)
  · rw [if_pos hmid, if_pos (by omega), show i - (d + 1) = i - d - 1 by omega,
      show i - d - 1 + 1 = i - d by omega]
  · rw [if_neg hmid, if_neg (by omega)]

theorem ashiftLeftUnaligned_represents (fresh : Buffer) (hs0 : 0 < s) (hs : s < digitSize)
    (hlen : a.length = n + 1) :
    (normalizeBignum (ashiftLeftUnalignedDigits a.ref d s (d + (n + 1) + 1)
      (allocZeroingBelow fresh d)) (d + (n + 1) + 1)).Represents
      (a.toInt * 2 ^ (digitSize * d + s)) := by
  have ha : 0 < a.length := by omega
  refine represents_of_bits (by omega) (fits_mul (by omega) (intFits (fits_toInt ha) ha) ?_)
    fun k hk j hj => ?_
  · have : 0 < digitSize * a.length := Nat.mul_pos digitSize_pos ha
    have hsum : digitSize * (d + (n + 1) + 1) =
        digitSize * d + digitSize * a.length + digitSize := by
      rw [hlen]
      ring
    omega
  · have hdigit := ashiftLeftUnalignedDigits_digit a.ref d s n (allocZeroingBelow fresh d) k
    rcases lt_or_ge k d with hkd | hkd
    · rw [if_neg (by omega), if_neg (by omega), if_neg (by omega), allocZeroingBelow,
        if_pos hkd] at hdigit
      rw [testBit_product_low _ _ hkd hj, hdigit]
      simp
    obtain ⟨i, rfl⟩ := Nat.exists_eq_add_of_le hkd
    rw [testBit_product a d i hs hj]
    by_cases hlast : i = n + 1
    · subst hlast
      rw [if_pos rfl] at hdigit
      rw [hdigit, getLsbD_ashr _ (by omega) hj]
      by_cases h : s ≤ j
      · rw [if_pos h, if_neg (by omega), extDigit, ext_of_le hlen.le, signBit, hlen,
          Nat.add_sub_cancel, getLsbD_signLimb _ (by omega), getLsbD_signLimb _ (by omega)]
      · rw [if_neg h, if_neg n.succ_ne_zero, if_pos (by omega), Nat.add_sub_cancel,
          extDigit_of_lt (by omega)]
    · rw [if_neg (by omega)] at hdigit
      by_cases hfirst : i = 0
      · subst hfirst
        rw [if_pos (Nat.add_zero d)] at hdigit
        rw [hdigit, extDigit_of_lt ha, BitVec.getLsbD_shiftLeft]
        by_cases h : s ≤ j
        · rw [if_pos h]
          simp [hj, h]
        · rw [if_neg h, if_pos rfl]
          simp [not_le.1 h]
      · rw [if_neg (by omega), if_pos (by omega), show d + i - d = i by omega] at hdigit
        rw [hdigit, getLsbD_shiftedLeft _ _ hs hj, if_neg hfirst, extDigit_of_lt (by omega),
          extDigit_of_lt (by omega)]

theorem not_fits_mul (ha : a.Normalized) (hn : n < a.length + d) :
    ¬Fits digitSize n (a.toInt * 2 ^ (digitSize * d)) := by
  have hpos := ha.length_pos
  intro hfits
  obtain ⟨m, hm⟩ := Nat.exists_eq_succ_of_ne_zero hpos.ne'
  have hmono := hfits.mono (show n ≤ m + d by omega)
  have hpow : (0 : ℤ) < 2 ^ (digitSize * d) := by positivity
  have hsmall : Fits digitSize m a.toInt := by
    unfold Fits at hmono ⊢
    rw [show (2 : ℤ) ^ (digitSize * (m + d)) =
      2 ^ (digitSize * m) * 2 ^ (digitSize * d) by rw [Nat.mul_add, pow_add],
      ← neg_mul, ← mul_assoc] at hmono
    exact ⟨le_of_mul_le_mul_right hmono.1 hpow, lt_of_mul_lt_mul_right hmono.2 hpow.le⟩
  rcases Nat.eq_zero_or_pos m with h0 | h0
  · refine ha.not_fixnum ?_
    rw [h0, Fits, Nat.mul_zero, pow_zero] at hsmall
    obtain hz : a.toInt = 0 := by omega
    rw [hz]
    exact ⟨by simp [nPositiveFixnumBits], by simp [nPositiveFixnumBits]⟩
  · exact ha.minimal m h0 (by omega) hsmall

theorem bignumAshiftLeftDigits_represents (fresh : Buffer) (d : ℕ) (ha : a.Normalized) :
    (LispInteger.bignum (bignumAshiftLeftDigits fresh a d)).Represents
      (a.toInt * 2 ^ (digitSize * d)) := by
  have hpos := ha.length_pos
  have hlen : (bignumAshiftLeftDigits fresh a d).length = a.length + d := rfl
  have hval : (bignumAshiftLeftDigits fresh a d).toInt = a.toInt * 2 ^ (digitSize * d) := by
    refine sval_of_testBit digitSize_pos (by rw [hlen]; omega)
      (fits_mul (by rw [hlen]; omega) (intFits (fits_toInt hpos) hpos) ?_) fun k hk j hj => ?_
    · have : 0 < digitSize * a.length := Nat.mul_pos digitSize_pos hpos
      rw [hlen, Nat.mul_add]
      omega
    unfold bignumAshiftLeftDigits
    dsimp only
    rcases lt_or_ge k d with hkd | hkd
    · have hlow := testBit_product_low a.toInt 0 hkd hj
      rw [Nat.add_zero] at hlow
      rw [hlow, if_neg (by omega), allocZeroingBelow, if_pos hkd]
      simp
    obtain ⟨i, rfl⟩ := Nat.exists_eq_add_of_le hkd
    have hhigh := testBit_product a d i digitSize_pos hj
    rw [Nat.add_zero, if_pos (Nat.zero_le j)] at hhigh
    rw [hlen] at hk
    rw [hhigh, if_pos (by omega), Nat.add_sub_cancel_left, extDigit_of_lt (by omega), Nat.sub_zero]
  refine ⟨hval, ⟨by rw [hlen]; omega, fun n _ hlt => ?_⟩, ?_⟩
  · rw [hval]
    exact not_fits_mul ha hlt
  rw [hval]
  intro hfix
  refine ha.not_fixnum ?_
  have hone : (1 : ℤ) ≤ 2 ^ (digitSize * d) := one_le_pow₀ (by norm_num)
  obtain ⟨h1, h2⟩ := hfix
  constructor
  · by_contra hc
    nlinarith
  · by_contra hc
    nlinarith

theorem bignumAshiftLeft_represents (fresh : Buffer) (ha : a.Normalized) {x : ℕ}
    (hx : x / digitSize + a.length + 1 ≤ maximumBignumLength) :
    ∃ r, bignumAshiftLeft fresh a x = some r ∧ r.Represents (a.toInt * 2 ^ x) := by
  have hs := Nat.mod_lt x digitSize_pos
  have hdiv := Nat.div_add_mod x digitSize
  have hfix : x < 2 ^ nPositiveFixnumBits := by
    simp only [maximumBignumLength, nPositiveFixnumBits, digitSize] at *
    omega
  unfold bignumAshiftLeft
  rw [if_pos hfix, if_neg (by omega)]
  split_ifs with haligned
  · refine ⟨_, rfl, ?_⟩
    have h := bignumAshiftLeftDigits_represents fresh (x / digitSize) ha
    rwa [show digitSize * (x / digitSize) = x by omega] at h
  refine ⟨_, rfl, ?_⟩
  obtain ⟨n, hn⟩ := Nat.exists_eq_succ_of_ne_zero ha.length_pos.ne'
  have h := ashiftLeftUnaligned_represents fresh (d :=
    x / digitSize) (Nat.pos_of_ne_zero haligned) hs hn
  rw [hdiv] at h
  rwa [hn]

/-! ## Fields -/

theorem testBit_ldb (size position : ℕ) (n : ℤ) (i : ℕ) :
    (ldb size position n).testBit i = (decide (i < size) && n.testBit (position + i)) := by
  rw [ldb, ash_neg, IntBits.testBit_emod, IntBits.testBit_ediv, Nat.add_comm]

theorem testBit_ldbDigit (size position : ℕ) (digit : Digit) (i : ℕ) :
    (ldbDigit size position digit).testBit i =
      (decide (i < size) && digit.getLsbD (position + i)) := by
  rw [ldbDigit, testBit_ldb, IntBits.testBit_natCast, BitVec.testBit_toNat]

theorem testBit_place (a : Bignum) (position i : ℕ)
    (hi : position % digitSize + i < 2 * digitSize) : a.toInt.testBit (position + i) =
      if position % digitSize + i < digitSize then (extDigit a (position / digitSize)).getLsbD
        (position % digitSize + i)
      else (extDigit a (position / digitSize + 1)).getLsbD
        (position % digitSize + i - digitSize) := by
  have hdiv := Nat.div_add_mod position digitSize
  split_ifs with h
  · rw [← testBit_toInt a _ h]
    congr 1
    omega
  · rw [← testBit_toInt a _ (by omega), Nat.mul_add]
    congr 1
    omega

variable {size : ℕ}

theorem testBit_twoWordField (x high : Digit) {bitIndex : ℕ} (hbit : bitIndex < digitSize)
    (hlow : digitSize < bitIndex + size) (i : ℕ) :
    (logior (ash (ldbDigit (size - (digitSize - bitIndex)) 0 high) (digitSize - bitIndex : ℕ))
      (ash x.toNat (-bitIndex))).testBit i =
      (decide (i < size) && if bitIndex + i < digitSize then x.getLsbD (bitIndex + i)
        else high.getLsbD (bitIndex + i - digitSize)) := by
  rw [logior, Int.testBit_lor, ash_ofNat, ash_neg, IntBits.testBit_mul, IntBits.testBit_ediv,
    testBit_ldbDigit,
    IntBits.testBit_natCast, BitVec.testBit_toNat, Nat.zero_add, Nat.add_comm i bitIndex]
  split_ifs with h
  · simp [show ¬digitSize - bitIndex ≤ i by omega, show i < size by omega]
  rw [BitVec.getLsbD_of_ge x _ (not_lt.1 h), Bool.or_false,
    decide_eq_true (show digitSize - bitIndex ≤ i by omega), Bool.true_and]
  congr 2
  · rw [eq_iff_iff]
    omega
  · omega

theorem ldbBignumToFixnum_eq (a : Bignum) (hsize : size ≤ nPositiveFixnumBits) (position : ℕ) :
    ldbBignumToFixnum size position a = ldb size position a.toInt := by
  have hs := Nat.mod_lt position digitSize_pos
  have hle : size < digitSize := hsize.trans_lt (by decide)
  apply IntBits.eq_of_testBit_eq
  intro i
  rw [testBit_ldb]
  unfold ldbBignumToFixnum
  by_cases hword : position / digitSize ≥ a.length
  · rw [if_pos hword, testBit_ldbDigit, Nat.zero_add]
    by_cases hi : i < size
    · rw [testBit_place a _ _ (by omega), signDigit_eq, getLsbD_signLimb _ (hi.trans hle)]
      split_ifs with h
      · rw [extDigit, ext_of_le hword, getLsbD_signLimb _ h]
      · rw [extDigit, ext_of_le (by omega), getLsbD_signLimb _ (by omega)]
    · simp [hi]
  rw [if_neg hword]
  by_cases hone : position % digitSize + size ≤ digitSize
  · rw [if_pos hone, testBit_ldbDigit]
    by_cases hi : i < size
    · rw [testBit_place a _ _ (by omega), if_pos (by omega), extDigit_of_lt (not_le.1 hword)]
    · simp [hi]
  have hhigh :
    (if position / digitSize + 1 < a.length then a.ref (position / digitSize + 1)
      else signDigit a.ref a.length) = extDigit a (position / digitSize + 1) := by
    split_ifs with hnext
    · exact (extDigit_of_lt hnext).symm
    · exact signDigit_eq_ext a (not_lt.1 hnext)
  rw [if_neg hone, hhigh, testBit_twoWordField _ _ hs (not_le.1 hone)]
  by_cases hi : i < size
  · rw [testBit_place a _ _ (by omega), extDigit_of_lt (not_le.1 hword)]
  · simp [hi]

theorem ldb_isFixnum (n : ℤ) (hsize : size ≤ nPositiveFixnumBits) (position : ℕ) :
    IsFixnum (ldb size position n) := by
  have hpow : (2 : ℤ) ^ size ≤ 2 ^ nPositiveFixnumBits := pow_le_pow_right₀ (by norm_num) hsize
  unfold ldb
  exact ⟨by omega, by omega⟩

/-- Over normalized bignums the operations are those of the integers, and every integer result is
normalized. The lengths and the byte size are in their declared types; a left shift is admissible
when its result can be as long as a bignum. -/
theorem bignum_shifts_and_logic (twoWords : Bool) (fresh : Buffer) (a b : NormalBignum)
    (n size position : ℕ)
    (hlen : a.length ≤ maximumBignumLength) (hsize : size ≤ nPositiveFixnumBits) :
    (∃ r, bignumAshiftRight twoWords fresh a.toBignum n = some r ∧ r.Represents (a.toInt / 2 ^ n)) ∧
      (n / digitSize + a.length + 1 ≤ maximumBignumLength →
        ∃ r, bignumAshiftLeft fresh a.toBignum n = some r ∧ r.Represents (a.toInt * 2 ^ n)) ∧
      (bignumLogicalAnd fresh a.toBignum b.toBignum).Represents (logand a.toInt b.toInt) ∧
      (bignumLogicalIor fresh a.toBignum b.toBignum).Represents (logior a.toInt b.toInt) ∧
      (bignumLogicalXor fresh a.toBignum b.toBignum).Represents (logxor a.toInt b.toInt) ∧
      (LispInteger.bignum (bignumLogicalNot fresh a.toBignum)).Represents (lognot a.toInt) ∧
      bignumCompare a.toBignum b.toBignum = Int.sign (a.toInt - b.toInt) ∧
      ldbBignumToFixnum size position a.toBignum = ldb size position a.toInt ∧
      IsFixnum (ldbBignumToFixnum size position a.toBignum) := by
  have ha := a.normalized
  have hb := b.normalized
  have hldb := ldbBignumToFixnum_eq a.toBignum hsize position
  refine ⟨bignumAshiftRight_represents twoWords fresh ha.length_pos hlen n,
    bignumAshiftLeft_represents fresh ha,
    bignumLogicalAnd_represents fresh ha.length_pos hb.length_pos,
      bignumLogicalIor_represents fresh ha.length_pos hb.length_pos,
    bignumLogicalXor_represents fresh ha.length_pos hb.length_pos,
      bignumLogicalNot_represents fresh ha,
    bignumCompare_eq ha.toMinimal hb.toMinimal, hldb, ?_⟩
  rw [hldb]
  exact ldb_isFixnum a.toInt hsize position

theorem bignum_shifts_and_logic_two_words :
    ∃ a : NormalBignum, a.toInt = 2 ^ 64 ∧
      ∃ r, bignumAshiftRight true (fun _ => 0) a.toBignum 3 = some r ∧
        r.Represents (2 ^ 64 / 2 ^ 3) := by
  obtain ⟨hval, hnormal⟩ := two_words_represents
  have h := (bignum_shifts_and_logic true (fun _ => 0) ⟨_, hnormal⟩ ⟨_, hnormal⟩ 3 0 0
    (show 2 ≤ maximumBignumLength by decide) (by decide)).1
  rw [hval] at h
  exact ⟨⟨_, hnormal⟩, hval, h⟩

end Sbcl.SbBignum
