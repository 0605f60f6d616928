import Sbcl.Printer.Integer
import Sbcl.Bignum.TruncateCorrect

/-!
# Integers are printed as their numerals

* `numeralOf` : the numeral of an integer, as characters;
* `iterativeAlgorithm_numeral`, `outputHexadecimal_numeral`, `outputChunks_numeral`,
  `bisect_numeral` : each way of printing;
* `CacheLaw` : the powers of a base in the cache are `base ^ 2 ^ k` in their order;
  `scrubPowerCache` and `powersForBase` keep it;
* `outputIntegerInBase_numeral` : the printer writes the numeral;
* `run_cacheLaw` : the law holds after any calls.
-/

namespace Sbcl.Printer

open Sbcl.SbBignum Limbs Numeral
open List (map_append range')
open Option (bind_eq_bind bind_some map_some some_inj)

/-- The character of a digit: `0` to `9`, then the letters in upper case. -/
def digitChar (d : ℕ) : Char := Char.ofNat (if d < 10 then 48 + d else 55 + d)

/-- The numeral of a magnitude. -/
def magnitudeOf (base : Base) (n : ℕ) : List Char := (numeral base.val n).map digitChar

/-- The numeral of an integer: a sign where it is negative, and no zero before other digits. -/
def numeralOf (base : Base) (n : ℤ) : List Char :=
  if n < 0 then '-' :: magnitudeOf base n.natAbs else magnitudeOf base n.natAbs

theorem getElem?_chars : ∀ d < 36, chars[d]? = some (digitChar d) := by decide

variable {base : Base}

theorem char_of_lt {d : ℕ} (h : d < base.val) : chars[d]? = some (digitChar d) :=
  getElem?_chars d (h.trans_le base.le_36)

theorem mod_lt (base : Base) (n : ℕ) : n % base.val < base.val :=
  Nat.mod_lt n (Nat.zero_lt_of_lt base.one_lt)

variable {n : ℕ}

theorem iterativeAlgorithm_numeral {buffer : List Char}
    (h : (numeral base.val n).length + buffer.length ≤ nWordBits) :
    iterativeAlgorithm base n buffer = some (magnitudeOf base n ++ buffer) := by
  induction n using Nat.strong_induction_on generalizing buffer with
  | _ n ih =>
    rw [numeral_succ base.one_lt, List.length_append, List.length_singleton] at h
    have hpush : pushChar (digitChar (n % base.val)) buffer =
        some (digitChar (n % base.val) :: buffer) :=
      if_pos (by omega)
    rw [iterativeAlgorithm, magnitudeOf, numeral_succ base.one_lt, char_of_lt (mod_lt base n)]
    dsimp only [bind_eq_bind, bind_some]
    rw [hpush, bind_some]
    by_cases hq : n / base.val = 0
    · rw [if_pos hq, if_pos hq]
      rfl
    rw [if_neg hq] at h
    have hn : 0 < n := Nat.pos_of_ne_zero fun h0 => hq (by rw [h0, Nat.zero_div])
    have hlen : (numeral base.val (n / base.val)).length + (digitChar (n % base.val) ::
        buffer).length ≤ nWordBits := by
      rw [List.length_cons]
      omega
    rw [if_neg hq, if_neg hq, ih _ (Nat.div_lt_self hn base.one_lt) hlen, magnitudeOf, map_append,
      List.append_assoc]
    rfl

theorem length_numeral_word (h : n < 2 ^ nWordBits) : (numeral base.val n).length ≤ nWordBits :=
  length_numeral_le base.one_lt (by decide) (h.trans_le (Nat.pow_le_pow_left base.two_le _))

theorem iterativeAlgorithm_word (h : n < 2 ^ nWordBits) :
    iterativeAlgorithm base n [] = some (magnitudeOf base n) := by
  have hlen : (numeral base.val n).length ≤ nWordBits := length_numeral_word h
  rw [iterativeAlgorithm_numeral (by rwa [List.length_nil, Nat.add_zero]), List.append_nil]

/-! ## Hexadecimal -/

theorem toNat_bignumOf_ref (n i : ℕ) :
    ((bignumOf n).ref i).toNat = n / 2 ^ (digitSize * i) % 2 ^ digitSize := by
  unfold bignumOf
  have hash : ash (n : ℤ) (-(digitSize * i : ℕ)) = ((n / 2 ^ (digitSize * i) : ℕ) : ℤ) := by
    rw [ash_neg]
    rfl
  rw [BitVec.toNat_ofInt,
    show (-(digitSize * i) : ℤ) = -(digitSize * i : ℕ) by push_cast; rfl, hash]
  norm_cast

theorem ldbDigit_bignumOf {size i bit : ℕ} (n : ℕ) (h : bit + size ≤ digitSize) :
    ldbDigit size bit ((bignumOf n).ref i) = n / 2 ^ (digitSize * i + bit) % 2 ^ size := by
  obtain ⟨j, hj⟩ := Nat.exists_eq_add_of_le h
  have hpow : (2 : ℕ) ^ digitSize = 2 ^ bit * (2 ^ size * 2 ^ j) := by
    rw [hj, pow_add, pow_add, Nat.mul_assoc]
  unfold ldbDigit
  rw [toNat_bignumOf_ref, hpow, Nat.mod_mul_right_div_self, Nat.mod_mul_right_mod,
    Nat.div_div_eq_div_mul, ← pow_add]

variable {k : ℕ}

theorem ldbBignumToFixnum_hex (h : 4 * k < integerLength n) :
    ldbBignumToFixnum 4 (4 * k) (bignumOf n) = n / 16 ^ k % 16 := by
  have hlen : (bignumOf n).length = integerLength n / 64 + 1 := rfl
  have hword : ¬integerLength n / 64 + 1 ≤ 4 * k / 64 := by omega
  have hbits : 4 * k % 64 + 4 ≤ 64 := by omega
  have hpow : (16 : ℕ) ^ k = 2 ^ (digitSize * (4 * k / digitSize) + 4 * k % digitSize) := by
    rw [Nat.div_add_mod, pow_mul]
    rfl
  unfold ldbBignumToFixnum
  rw [hlen]
  rw [if_neg hword, if_pos hbits, ldbDigit_bignumOf n hbits, hpow]
  rfl

theorem outputHexadecimal_padded {count : ℕ} (h : 4 * count < integerLength n + 4) :
    outputHexadecimal (bignumOf n) count = some ((padded 16 count n).map digitChar) := by
  induction count with
  | zero => rfl
  | succ count ih =>
    have hchar := getElem?_chars (n / 16 ^ count % 16) (by omega)
    rw [outputHexadecimal, ldbBignumToFixnum_hex (by omega), hchar, ih (by omega),
      Nat.add_comm count 1, padded_add]
    rfl

theorem outputHexadecimal_numeral (h : 0 < n) :
    outputHexadecimal (bignumOf n)
      ((integerLength n + 3) / 4) = some ((significant 16 n).map digitChar) := by
  have hpos : 0 < integerLength n :=
    (lt_integerLength_iff (Int.natCast_nonneg n) 0).2 (by rw [pow_zero]; omega)
  obtain ⟨k, hk⟩ : ∃ k, (integerLength n + 3) / 4 = k + 1 :=
    ⟨(integerLength n + 3) / 4 - 1, by omega⟩
  have h16 (m : ℕ) : (16 : ℕ) ^ m = 2 ^ (4 * m) := by
    rw [pow_mul]
    rfl
  have hlow : 16 ^ k ≤ n := by
    rw [h16]
    exact_mod_cast (lt_integerLength_iff (Int.natCast_nonneg n) (4 * k)).1 (by omega)
  have hhigh : n < 16 ^ (k + 1) := by
    rw [h16]
    exact_mod_cast (integerLength_le_iff (Int.natCast_nonneg n) (4 * (k + 1))).1 (by omega)
  rw [hk, outputHexadecimal_padded (by omega), padded_eq_of_le (by decide) hhigh hlow]

/-! ## Chunks -/

theorem firstAbove_spec (fullWidth : Bool) (base : Base) (i : ℕ) :
    i ≤ firstAbove fullWidth base i ∧
    chunkLimit fullWidth < base.val ^ firstAbove fullWidth base i ∧
      ∀ j, i ≤ j → j < firstAbove fullWidth base i → base.val ^ j ≤ chunkLimit fullWidth := by
  induction i using firstAbove.induct fullWidth base with
  | case1 i h =>
    rw [firstAbove, if_pos h]
    exact ⟨le_rfl, h, fun j hj hlt => absurd hlt (by omega)⟩
  | case2 i h ih =>
    rw [firstAbove, if_neg h]
    obtain ⟨hle, habove, hbelow⟩ := ih
    refine ⟨by omega, habove, fun j hj hlt => ?_⟩
    rcases hj.eq_or_lt with rfl | hj
    · exact not_lt.1 h
    · exact hbelow j hj hlt

theorem base_le_chunkLimit (fullWidth : Bool) (base : Base) :
    base.val ^ 1 ≤ chunkLimit fullWidth := by
  have := base.le_36
  rw [pow_one]
  cases fullWidth
  · exact this.trans (by decide)
  · exact this.trans (by decide)

theorem divisors_eq (fullWidth : Bool) (base : Base) :
    divisors fullWidth base = base.val ^ zeros fullWidth base := by
  have h : firstAbove fullWidth base 1 = firstAbove fullWidth base 2 := by
    rw [firstAbove, if_neg (not_lt.2 (base_le_chunkLimit fullWidth base))]
  rw [divisors, zeros, h]

theorem zeros_pos (fullWidth : Bool) (base : Base) : 0 < zeros fullWidth base := by
  obtain ⟨hle, habove, -⟩ := firstAbove_spec fullWidth base 1
  have hne : firstAbove fullWidth base 1 ≠ 1 := by
    intro h
    rw [h] at habove
    exact absurd (base_le_chunkLimit fullWidth base) (not_le.2 habove)
  unfold zeros
  omega

theorem divisors_le (fullWidth : Bool) (base : Base) :
    divisors fullWidth base ≤ chunkLimit fullWidth := by
  have hpos := zeros_pos fullWidth base
  rw [divisors_eq]
  unfold zeros at hpos ⊢
  exact (firstAbove_spec fullWidth base 1).2.2 _ (by omega) (by omega)

theorem divisors_lt (fullWidth : Bool) (base : Base) : divisors fullWidth base < 2 ^ nWordBits := by
  refine (divisors_le fullWidth base).trans_lt ?_
  cases fullWidth <;> decide

theorem zeros_le (fullWidth : Bool) (base : Base) : zeros fullWidth base ≤ nWordBits := by
  have h : (2 : ℕ) ^ zeros fullWidth base < 2 ^ nWordBits :=
    ((Nat.pow_le_pow_left base.two_le _).trans (divisors_eq fullWidth base).ge).trans_lt
      (divisors_lt fullWidth base)
  exact ((Nat.pow_lt_pow_iff_right (by decide)).1 h).le

theorem two_le_divisors (fullWidth : Bool) (base : Base) : 2 ≤ divisors fullWidth base := by
  rw [divisors_eq]
  calc 2 ≤ base.val := base.two_le
    _ = base.val ^ 1 := (pow_one _).symm
    _ ≤ base.val ^ zeros fullWidth base :=
      Nat.pow_le_pow_right (by have := base.two_le; omega) (zeros_pos fullWidth base)

/-- The digit that a chunk is divided by. -/
def chunkDivisor (fullWidth : Bool) (base : Base) : Digit :=
  BitVec.ofNat digitSize (divisors fullWidth base)

theorem toNat_chunkDivisor (fullWidth : Bool) (base : Base) :
    (chunkDivisor fullWidth base).toNat = base.val ^ zeros fullWidth base := by
  unfold chunkDivisor
  rw [BitVec.toNat_ofNat, Nat.mod_eq_of_lt (divisors_lt fullWidth base), divisors_eq]

theorem bignumTruncateSingleDigitTo_spec (x : Buffer) {y : Digit} (q : Buffer) {len : ℕ}
    (hlen : 0 < len) (hy : 0 < y.toNat) :
    val (bignumTruncateSingleDigitTo x y q len).1 len = val x len / y.toNat ∧
      (bignumTruncateSingleDigitTo x y q len).2.1.toNat = val x len % y.toNat ∧
      (bignumTruncateSingleDigitTo x y q len).2.2 =
        if (bignumTruncateSingleDigitTo x y q len).1 (len - 1) = 0 then len - 1 else len := by
  obtain ⟨i, rfl⟩ : ∃ i, len = i + 1 := ⟨len - 1, by omega⟩
  unfold bignumTruncateSingleDigitTo
  rw [Nat.add_sub_cancel]
  have h := dotimes_induction (n := i) (s := (Function.update q i (x i / y), x i % y)) (f :=
    fun k t =>
    (Function.update t.1 (i - 1 - k) (bigfloor t.2 (x (i - 1 - k)) y).1,
      (bigfloor t.2 (x (i - 1 - k)) y).2))
    (P := fun k t => WordRounds x y (i + 1) (i - k) (k + 1) t ∧ t.1 i = x i / y) ?_ ?_
  · rw [Nat.sub_self] at h
    obtain ⟨⟨hval, hlt⟩, htop⟩ := h
    rw [htop]
    have hwin (q : Buffer) : window q 0 = q := by
      funext i
      unfold window
      rw [Nat.zero_add]
    rw [mul_zero, pow_zero, mul_one, val_zero, add_zero, hwin] at hval
    refine ⟨?_, ?_, rfl⟩
    · rw [hval, Nat.add_comm (_ * _), Nat.add_mul_div_right _ _ hy,
        Nat.div_eq_of_lt hlt, Nat.zero_add]
    · rw [hval, Nat.add_comm (_ * _), Nat.add_mul_mod_self_right, Nat.mod_eq_of_lt hlt]
  · rw [Nat.sub_zero]
    refine ⟨⟨?_, ?_⟩, Function.update_self ..⟩
    · have hdiv := Nat.div_add_mod (x i).toNat y.toNat
      have htop : window (Function.update q i (x i / y)) i 0 = x i / y := Function.update_self ..
      rw [val_one, htop, BitVec.toNat_udiv, BitVec.toNat_umod, Nat.mul_comm (_ / _), hdiv]
      exact (val_succ x i).trans (Nat.add_comm _ _)
    · dsimp only
      rw [BitVec.toNat_umod]
      exact Nat.mod_lt _ hy
  · rintro k hk t ⟨ht, htop⟩
    obtain ⟨j, hj⟩ : ∃ j, i - k = j + 1 := ⟨i - k - 1, by omega⟩
    rw [hj] at ht
    rw [show i - 1 - k = j by omega, show i - (k + 1) = j by omega]
    refine ⟨ht.step, ?_⟩
    dsimp only
    rw [Function.update_of_ne (by omega), htop]

theorem outputRemainder_padded (fullWidth : Bool) {r : Digit}
    (h : r.toNat < base.val ^ zeros fullWidth base) :
    outputRemainder fullWidth base r =
      some ((padded base.val (zeros fullWidth base) r.toNat).map digitChar) := by
  unfold outputRemainder
  rw [iterativeAlgorithm_word r.isLt, bind_eq_bind, bind_some, if_pos (zeros_le fullWidth base),
    padded_eq_numeral base.one_lt (zeros_pos fullWidth base) h, map_append,
    List.map_replicate, magnitudeOf, List.length_map]
  rfl

/-- The last digit is not zero if and only if the number needs all of the digits. -/
theorem pow_le_val_iff (f : Buffer) (i : ℕ) : 2 ^ (digitSize * i) ≤ val f (i + 1) ↔ f i ≠ 0 := by
  rw [val_succ]
  constructor
  · intro h h0
    rw [h0] at h
    have := val_lt f i
    simp at h
    omega
  · intro h
    have hpos : 1 ≤ (f i).toNat := Nat.pos_of_ne_zero fun h0 => h (BitVec.eq_of_toNat_eq h0)
    have := Nat.mul_le_mul_right (2 ^ (digitSize * i)) hpos
    omega

theorem outputChunks_numeral (fullWidth : Bool) {fuel i : ℕ} {n q : Buffer} (htop : n (i + 1) ≠ 0)
    (hfuel : val n (i + 2) < 2 ^ fuel) :
    outputChunks fullWidth base fuel n q (i + 2) =
      some ((significant base.val (val n (i + 2))).map digitChar) := by
  induction fuel generalizing i n q with
  | zero =>
    have hlow := Nat.one_le_two_pow.trans ((pow_le_val_iff n (i + 1)).2 htop)
    rw [pow_zero] at hfuel
    exact absurd (hlow.trans_lt hfuel) (lt_irrefl 1)
  | succ fuel ih =>
    have hlow := (pow_le_val_iff n (i + 1)).2 htop
    have hy := toNat_chunkDivisor fullWidth base
    have htwo : 2 ≤ base.val ^ zeros fullWidth base :=
      divisors_eq fullWidth base ▸ two_le_divisors fullWidth base
    have hword : base.val ^ zeros fullWidth base < 2 ^ digitSize :=
      divisors_eq fullWidth base ▸ divisors_lt fullWidth base
    obtain ⟨hq, hr, hlen⟩ := bignumTruncateSingleDigitTo_spec n (y := chunkDivisor fullWidth base) q
      (Nat.succ_pos (i + 1)) (by rw [hy]; omega)
    unfold outputChunks
    rw [show BitVec.ofNat digitSize (divisors fullWidth base) =
      chunkDivisor fullWidth base from rfl]
    generalize bignumTruncateSingleDigitTo n (chunkDivisor fullWidth base) q (i + 1 + 1) =
      res at hq hr hlen ⊢
    obtain ⟨q', r, newLen⟩ := res
    dsimp only at hq hr hlen ⊢
    rw [hy] at hq hr
    have hqpos : 0 < val n (i + 2) / base.val ^ zeros fullWidth base := by
      refine Nat.div_pos (hword.le.trans (le_trans ?_ hlow)) (by omega)
      exact Nat.pow_le_pow_right (by decide) (Nat.le_mul_of_pos_right _ (Nat.succ_pos i))
    have hupper : (if newLen = 1 then iterativeAlgorithm base (q' 0).toNat []
        else outputChunks fullWidth base fuel q' q' newLen) =
          some ((significant base.val (val q' (i + 2))).map digitChar) := by
      -- The quotient is without a leading zero after one digit at most.
      have hfew : val q' (i + 2) < 2 ^ fuel := by
        rw [hq]
        refine Nat.div_lt_of_lt_mul (hfuel.trans_le ?_)
        rw [pow_succ, Nat.mul_comm]
        exact Nat.mul_le_mul_right _ htwo
      by_cases htop' : q' (i + 1) = 0
      · have hval : val q' (i + 2) = val q' (i + 1) := by
          rw [val_succ, htop']
          simp
        have hnew : newLen = i + 1 := hlen.trans (if_pos htop')
        rw [hval] at hfew ⊢
        obtain rfl | ⟨j, rfl⟩ : i = 0 ∨ ∃ j, i = j + 1 := by
          rcases i with _ | j
          · exact .inl rfl
          · exact .inr ⟨j, rfl⟩
        · rw [if_pos hnew, iterativeAlgorithm_word (q' 0).isLt, val_one,
            magnitudeOf, numeral_of_pos]
          rw [← hq, hval, val_one] at hqpos
          exact hqpos
        rw [if_neg (by omega), hnew]
        refine ih ((pow_le_val_iff q' (j + 1)).1 ?_) hfew
        rw [← hval, hq, Nat.le_div_iff_mul_le (by omega)]
        calc 2 ^ (digitSize * (j + 1)) * base.val ^ zeros fullWidth base
            ≤ 2 ^ (digitSize * (j + 1)) * 2 ^ digitSize := Nat.mul_le_mul_left _ hword.le
          _ = 2 ^ (digitSize * (j + 1 + 1)) := by rw [radix_succ _ (j + 1), Nat.mul_comm]
          _ ≤ val n (j + 1 + 2) := hlow
      · have hnew : newLen = i + 2 := hlen.trans (if_neg htop')
        rw [if_neg (by omega), hnew]
        exact ih htop' hfew
    have hrem : r.toNat < base.val ^ zeros fullWidth base := hr ▸ Nat.mod_lt _ (by omega)
    have hpad : padded base.val (zeros fullWidth base) r.toNat =
        padded base.val (zeros fullWidth base) (val n (i + 2)) := by
      rw [hr, padded_mod]
    have hjoin (upper : Option (List Char)) (h : upper =
      some ((significant base.val (val q' (i + 2))).map digitChar)) :
        (do let upper ← upper
            let remainder ← outputRemainder fullWidth base r
            some (upper ++ remainder)) =
              some ((significant base.val (val n (i + 2))).map digitChar) := by
      rw [h, bind_eq_bind, bind_some, outputRemainder_padded fullWidth hrem, hpad, hq,
        bind_some, significant_append base.one_lt (zeros fullWidth base) hqpos, map_append]
    split
    · rw [if_pos ‹_›] at hupper
      exact hjoin _ hupper
    · rw [if_neg ‹_›] at hupper
      exact hjoin _ hupper

theorem val_bignumOf (n i : ℕ) : val (bignumOf n).ref i = n % 2 ^ (digitSize * i) := by
  induction i with
  | zero => rw [val_zero, mul_zero, pow_zero, Nat.mod_one]
  | succ i ih =>
    rw [val_succ, ih, toNat_bignumOf_ref, radix_succ, Nat.mul_comm (2 ^ digitSize), Nat.mod_mul,
      Nat.mul_comm (_ % _)]

theorem bignumOf_chunks (h : 2 ^ nWordBits ≤ n) :
    ∃ i, (if (bignumOf n).ref ((bignumOf n).length - 1) = 0 then (bignumOf n).length -
      1 else (bignumOf n).length) = i + 2 ∧
      (bignumOf n).ref (i + 1) ≠ 0 ∧ val (bignumOf n).ref (i + 2) = n := by
  have hlen : (bignumOf n).length = integerLength n / 64 + 1 := rfl
  have hsize : 64 < integerLength n :=
    (lt_integerLength_iff (Int.natCast_nonneg n) 64).2 (by exact_mod_cast h)
  have hall (i : ℕ) (hi : integerLength n ≤ 64 * i) : val (bignumOf n).ref i = n := by
    rw [val_bignumOf]
    exact Nat.mod_eq_of_lt (by exact_mod_cast (integerLength_le_iff (Int.natCast_nonneg n) _).1 hi)
  have hlow (i : ℕ) (hi : 64 * i < integerLength n) : 2 ^ (digitSize * i) ≤ n := by
    exact_mod_cast (lt_integerLength_iff (Int.natCast_nonneg n) (64 * i)).1 hi
  rw [hlen, Nat.add_sub_cancel]
  obtain ⟨i, hi⟩ : ∃ i, integerLength n / 64 = i + 1 := ⟨integerLength n / 64 - 1, by omega⟩
  rw [hi]
  by_cases htop : (bignumOf n).ref (i + 1) = 0
  · have hval := hall (i + 2) (by omega)
    have hzero : val (bignumOf n).ref (i + 1) = n := by
      rw [val_succ, htop] at hval
      simpa using hval
    have hbits : integerLength n ≤ 64 * (i + 1) := by
      refine (integerLength_le_iff (Int.natCast_nonneg n) _).2 ?_
      have := val_lt (bignumOf n).ref (i + 1)
      rw [hzero] at this
      exact_mod_cast this
    obtain ⟨j, rfl⟩ : ∃ j, i = j + 1 := ⟨i - 1, by omega⟩
    rw [if_pos htop]
    refine ⟨j, rfl, (pow_le_val_iff _ _).1 ?_, hzero⟩
    rw [hzero]
    exact hlow (j + 1) (by omega)
  · rw [if_neg htop]
    exact ⟨i, rfl, htop, hall (i + 2) (by omega)⟩

/-! ## The powers of a base -/

/-- The first `m` powers. -/
def powersOf (base : Base) (m : ℕ) : List ℕ := (List.range m).map fun k => base.val ^ 2 ^ k

/-- A vector of the cache holds the first powers, one at least. -/
def CacheLaw (cache : PowerCache) : Prop :=
  ∀ (base : Base) (powers : List ℕ), cache[base.val]? = some (some powers) → ∃ m,
    powers = powersOf base (m + 1)

theorem length_powersOf (base : Base) (m : ℕ) : (powersOf base m).length = m := by
  rw [powersOf, List.length_map, List.length_range]

theorem getElem?_powersOf {m : ℕ} (h : k < m) :
    (powersOf base m)[k]? = some (base.val ^ 2 ^ k) := by
  rw [powersOf, List.getElem?_map, List.getElem?_range h]
  rfl

theorem take_powersOf (base : Base) (m j : ℕ) :
    (powersOf base m).take j = powersOf base (min j m) := by
  rw [powersOf, ← List.map_take, List.take_range]
  rfl

theorem cacheLaw_initial : CacheLaw initialPowerCache := by
  intro base powers h
  rw [initialPowerCache, Vector.getElem?_replicate, if_pos base.lt_37] at h
  cases h

/-- The first power is never too big. -/
theorem scrub_powersOf (base : Base) (m : ℕ) :
    ∃ j, (match (powersOf base (m + 1)).findIdx? fun x : ℕ => powerCacheIntegerLengthLimit ≤
      integerLength x with
      | none => powersOf base (m + 1)
      | some tooBig => (powersOf base (m + 1)).take tooBig) = powersOf base (j + 1) := by
  split
  · exact ⟨m, rfl⟩
  rename_i tooBig h
  obtain ⟨hlt, hbig, -⟩ := List.findIdx?_eq_some_iff_getElem.1 h
  obtain ⟨j, rfl⟩ : ∃ j, tooBig = j + 1 := by
    rcases tooBig with _ | j
    · exfalso
      have hget := List.getElem?_eq_getElem hlt
      rw [getElem?_powersOf (Nat.succ_pos m), some_inj] at hget
      rw [← hget, pow_zero, pow_one, decide_eq_true_eq] at hbig
      have hle := (integerLength_le_iff (Int.natCast_nonneg base.val) 6).2
        (by have := base.le_36; norm_num; omega)
      exact absurd (hbig.trans hle) (by decide)
    · exact ⟨j, rfl⟩
  rw [length_powersOf] at hlt
  rw [take_powersOf, min_eq_left hlt.le]
  exact ⟨j, rfl⟩

variable {cache : PowerCache}

theorem CacheLaw.scrub (h : CacheLaw cache) : CacheLaw (scrubPowerCache cache) := by
  intro base powers hget
  unfold scrubPowerCache at hget
  rw [Vector.getElem?_map, Option.map_eq_some_iff] at hget
  obtain ⟨entry, hentry, hpowers⟩ := hget
  obtain ⟨old, rfl, rfl⟩ := Option.map_eq_some_iff.1 hpowers
  obtain ⟨m, rfl⟩ := h base old hentry
  exact scrub_powersOf base m

theorem CacheLaw.set (h : CacheLaw cache) (base : Base) (m : ℕ) :
    CacheLaw (cache.set base.val (some (powersOf base (m + 1))) base.lt_37) := by
  intro base' powers hget
  rw [Vector.getElem?_set] at hget
  split at hget
  · rename_i heq
    obtain rfl : base = base' := by
      cases base
      cases base'
      exact (Base.mk.injEq ..).symm ▸ heq
    exact ⟨m, (some_inj.1 (some_inj.1 hget)).symm⟩
  · exact h base' powers hget

theorem computePowers_spec (base : Base) (limit fuel j : ℕ)
    (h : limit + 1 ≤ base.val ^ 2 ^ j + fuel) :
    ∃ m, computePowers limit (fuel + 1)
      (base.val ^ 2 ^ j) = some ((range' j (m + 1)).map fun k => base.val ^ 2 ^ k) ∧
      limit < base.val ^ 2 ^ (j + m) := by
  induction fuel generalizing j with
  | zero =>
    have hlt : limit < base.val ^ 2 ^ j := h
    rw [computePowers, if_pos hlt]
    exact ⟨0, rfl, hlt⟩
  | succ fuel ih =>
    by_cases hlt : limit < base.val ^ 2 ^ j
    · rw [computePowers, if_pos hlt]
      exact ⟨0, rfl, hlt⟩
    have hsq : base.val ^ 2 ^ j * base.val ^ 2 ^ j = base.val ^ 2 ^ (j + 1) := by
      rw [← pow_add, ← two_mul, ← pow_succ']
    have htwo : 2 ≤ base.val ^ 2 ^ j :=
      base.two_le.trans (Nat.le_self_pow (Nat.two_pow_pos j).ne' base.val)
    have hmul := Nat.mul_le_mul_right (base.val ^ 2 ^ j) htwo
    rw [hsq] at hmul
    obtain ⟨m, hm, habove⟩ := ih (j + 1) (by omega)
    rw [computePowers, if_neg hlt, hsq, hm]
    refine ⟨m + 1, ?_, ?_⟩
    · rw [List.range'_succ, List.map_cons]
      rfl
    · rwa [Nat.add_comm m 1, ← Nat.add_assoc]

theorem extendPowers_spec (h : CacheLaw cache) (base : Base) (limit j : ℕ) :
    ∃ m cache', extendPowers base limit cache (powersOf base j)
      (base.val ^ 2 ^ j) = some (powersOf base (m + 1), cache') ∧
      limit < base.val ^ 2 ^ m ∧ CacheLaw cache' := by
  have hpos : 1 ≤ base.val ^ 2 ^ j := Nat.one_le_pow _ _ (Nat.zero_lt_of_lt base.one_lt)
  obtain ⟨m, hm, habove⟩ := computePowers_spec base limit limit j (by omega)
  have happend : powersOf base j ++ (range' j (m + 1)).map (fun k => base.val ^ 2 ^ k) =
      powersOf base (j + m + 1) := by
    have hrange : range' 0 j ++ range' (0 + j) (m + 1) = range' 0 (j + (m + 1)) :=
      List.range'_append_1
    rw [Nat.zero_add] at hrange
    rw [powersOf, powersOf, ← map_append, List.range_eq_range', List.range_eq_range',
      Nat.add_assoc, hrange]
  refine ⟨j + m, _, ?_, habove, h.set base (j + m)⟩
  rw [extendPowers, hm, map_some, happend]

theorem powersForBase_spec (h : CacheLaw cache) (base : Base) (limit : ℕ) :
    ∃ m cache', powersForBase base limit cache = some (powersOf base (m + 1), cache') ∧
      limit < base.val ^ 2 ^ m ∧ CacheLaw cache' := by
  have hget : cache[base.val]? = some (cache.get ⟨base.val, base.lt_37⟩) :=
    Vector.getElem?_eq_getElem base.lt_37
  unfold powersForBase
  cases hentry : cache.get ⟨base.val, base.lt_37⟩ with
  | none =>
    have hext := extendPowers_spec h base limit 0
    rwa [pow_zero, pow_one] at hext
  | some powers =>
    rw [hentry] at hget
    obtain ⟨m, rfl⟩ := h base powers hget
    have hmax : (powersOf base (m + 1))[(powersOf base (m + 1)).length - 1]? =
        some (base.val ^ 2 ^ m) := by
      rw [length_powersOf, Nat.add_sub_cancel, getElem?_powersOf (Nat.lt_succ_self m)]
    dsimp only
    rw [hmax, bind_eq_bind, bind_some]
    by_cases hlt : limit < base.val ^ 2 ^ m
    · rw [if_pos hlt]
      exact ⟨m, cache, rfl, hlt, h⟩
    · rw [if_neg hlt, ← pow_add, ← two_mul, ← pow_succ']
      exact extendPowers_spec h base limit (m + 1)

/-! ## Bisection -/

theorem bisect_numeral {m : ℕ} (hk : k ≤ m) (hn : n < base.val ^ 2 ^ k) (exactp : Bool) :
    bisect (powersOf base m) k n exactp =
      some ((if exactp then padded base.val (2 ^ k) n else significant base.val n).map
        digitChar) := by
  induction k generalizing n exactp with
  | zero =>
    rw [pow_zero, pow_one] at hn
    rcases n with _ | n
    · cases exactp <;> simp [bisect, digitChar]
    have hpad : padded base.val 1 (n + 1) = [n + 1] := by
      rw [padded, Nat.mod_eq_of_lt hn]
      rfl
    rw [bisect, char_of_lt hn, significant_of_lt base.one_lt (Nat.succ_pos n) hn,
      pow_zero, hpad, ite_self]
    rfl
  | succ k ih =>
    rcases n with _ | n
    · cases exactp <;> simp [bisect, digitChar]
    have hsq : base.val ^ 2 ^ (k + 1) = base.val ^ 2 ^ k * base.val ^ 2 ^ k := by
      rw [← pow_add, ← two_mul, ← pow_succ']
    have hq : (n + 1) / base.val ^ 2 ^ k < base.val ^ 2 ^ k := Nat.div_lt_of_lt_mul (hsq ▸ hn)
    have hr : (n + 1) % base.val ^ 2 ^ k < base.val ^ 2 ^ k :=
      Nat.mod_lt _ (Nat.pow_pos (Nat.zero_lt_of_lt base.one_lt))
    rw [bisect, getElem?_powersOf (by omega), bind_eq_bind, bind_some, ih (by omega) hq,
      bind_eq_bind, bind_some, ih (by omega) hr, bind_some, ← map_append]
    refine congrArg (fun digits : List ℕ => some (digits.map digitChar)) ?_
    cases exactp with
    | true =>
      rw [Bool.true_or, if_pos rfl, if_pos rfl, if_pos rfl, padded_mod, pow_succ,
        Nat.mul_two, padded_add]
    | false =>
      rw [Bool.false_or, if_neg Bool.false_ne_true, if_neg Bool.false_ne_true]
      by_cases hpos : 0 < (n + 1) / base.val ^ 2 ^ k
      · rw [if_pos (decide_eq_true hpos), padded_mod, ← significant_append base.one_lt _ hpos]
      · have hzero := Nat.eq_zero_of_not_pos hpos
        rw [if_neg (fun h => hpos (of_decide_eq_true h)), hzero, significant_zero, List.nil_append,
          Nat.mod_eq_of_lt
          ((Nat.div_eq_zero_iff_lt (Nat.pow_pos (Nat.zero_lt_of_lt base.one_lt))).1 hzero)]

theorem outputHugeIntegerInBase_numeral (h : CacheLaw cache) (base : Base) (n : ℕ) :
    ∃ cache', outputHugeIntegerInBase n base cache =
      some ((significant base.val n).map digitChar, cache') ∧ CacheLaw cache' := by
  obtain ⟨m, cache', hpowers, habove, hlaw⟩ := powersForBase_spec h base n
  unfold outputHugeIntegerInBase
  rw [hpowers, bind_eq_bind, bind_some]
  dsimp only
  cases hk : (powersOf base (m + 1)).findIdx? fun x => n < x with
  | none =>
    have hnot :=
      List.findIdx?_eq_none_iff.1 hk (base.val ^ 2 ^ m)
        (List.mem_of_getElem? (getElem?_powersOf (Nat.lt_succ_self m)))
    exact absurd habove (by simpa using hnot)
  | some k =>
    obtain ⟨hlt, hn, -⟩ := List.findIdx?_eq_some_iff_getElem.1 hk
    have hget := List.getElem?_eq_getElem hlt
    rw [length_powersOf] at hlt
    rw [getElem?_powersOf hlt, some_inj] at hget
    rw [← hget, decide_eq_true_eq] at hn
    refine ⟨cache', ?_, hlaw⟩
    rw [bind_eq_bind, bind_some, bisect_numeral hlt.le hn]
    rfl

theorem outputMagnitude_numeral (fullWidth : Bool) (fresh : Buffer) (h : CacheLaw cache) (n : ℕ)
    (base : Base) :
    ∃ cache', outputMagnitude fullWidth fresh cache n base = some (magnitudeOf base n, cache') ∧
      CacheLaw cache' := by
  unfold outputMagnitude
  split
  · exact ⟨cache, by rw [iterativeAlgorithm_word ‹_›, map_some], h⟩
  rename_i hword
  have hpos : 0 < n := lt_of_lt_of_le (by decide) (not_lt.1 hword)
  rw [magnitudeOf, numeral_of_pos hpos]
  split
  · rename_i h16
    exact ⟨cache, by rw [outputHexadecimal_numeral hpos, map_some, h16], h⟩
  dsimp only
  split
  · obtain ⟨i, hlen, htop, hval⟩ := bignumOf_chunks (not_lt.1 hword)
    refine ⟨cache, ?_, h⟩
    have hfuel : val (bignumOf n).ref (i + 2) < 2 ^ (nWordBits * (i + 2)) := val_lt _ _
    rw [hlen, outputChunks_numeral fullWidth htop hfuel, hval]
    rfl
  · exact outputHugeIntegerInBase_numeral h base n

theorem outputIntegerInBase_numeral (fullWidth : Bool) (fresh : Buffer) (h : CacheLaw cache) (n : ℤ)
    (base : Base) :
    ∃ cache', outputIntegerInBase fullWidth fresh cache n base = some (numeralOf base n, cache') ∧
      CacheLaw cache' := by
  obtain ⟨cache', hwritten, hlaw⟩ := outputMagnitude_numeral fullWidth fresh h n.natAbs base
  refine ⟨cache', ?_, hlaw⟩
  rw [outputIntegerInBase, hwritten]
  rfl

theorem CacheOp.run_cacheLaw (fullWidth : Bool) (h : CacheLaw cache) (op : CacheOp) :
    ∃ cache', op.run fullWidth cache = some cache' ∧ CacheLaw cache' := by
  cases op with
  | output fresh n base =>
    obtain ⟨cache', hwritten, hlaw⟩ := outputIntegerInBase_numeral fullWidth fresh h n base
    refine ⟨cache', ?_, hlaw⟩
    rw [CacheOp.run, hwritten]
    rfl
  | scrub => exact ⟨_, rfl, h.scrub⟩

theorem run_cacheLaw (fullWidth : Bool) (h : CacheLaw cache) (ops : List CacheOp) :
    ∃ cache', ops.foldlM (CacheOp.run fullWidth) cache = some cache' ∧ CacheLaw cache' := by
  induction ops generalizing cache with
  | nil => exact ⟨cache, rfl, h⟩
  | cons op ops ih =>
    obtain ⟨cache₁, hop, hlaw⟩ := CacheOp.run_cacheLaw fullWidth h op
    rw [List.foldlM_cons, hop]
    exact ih hlaw

end Sbcl.Printer
