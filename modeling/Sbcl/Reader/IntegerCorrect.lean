import Sbcl.Reader.Integer
import Sbcl.Printer.IntegerCorrect

/-!
# What is printed is read back

* `digitCharP_digitChar` : a digit of a numeral has its weight;
* `makeInteger_numeralOf`, `parseIntegerBounded_numeralOf` : the readers return the integer of its
  numeral;
* `integer_print_read` : both directions, with the cache of powers as any calls have left it.
-/

namespace Sbcl.Reader

open Sbcl.Printer Numeral List Option

variable (ucdDecimalDigit : ℕ → Option ℕ) {base : Base}

theorem toNat_digitChar :
    ∀ d < 36, (digitChar d).toNat = if d < 10 then 48 + d else 55 + d := by decide

theorem lowerCase_digit : ∀ d < 36, 10 ≤ d → 32 ||| (55 + d) = 87 + d := by decide

theorem digitCharP_digitChar {d : ℕ} (h : d < base.val) :
    digitCharP ucdDecimalDigit (digitChar d) base.val = some d := by
  have h36 := h.trans_le base.le_36
  unfold digitCharP
  rw [toNat_digitChar d h36]
  by_cases h10 : d < 10
  · rw [if_pos h10]
    dsimp only
    rw [if_pos (by omega), if_neg (by omega), Nat.add_sub_cancel_left]
    rw [if_pos h, if_pos h10, ite_self]
  rw [if_neg h10]
  rw [if_pos (by omega), if_neg (by omega), if_neg (by omega), if_neg (by omega),
    lowerCase_digit d h36 (by omega), if_pos (by omega)]
  congr 1
  omega

theorem digitChar_ne : ∀ d < 36, digitChar d ≠ '.' ∧ digitChar d ≠ '-' ∧ digitChar d ≠ '+' ∧
    whitespace1p (digitChar d) = false := by decide

theorem le_horner {b : ℕ} (hb : 1 ≤ b) (acc : ℕ) (l : List ℕ) : acc ≤ horner b acc l := by
  rw [horner_eq]
  have := Nat.mul_le_mul_left acc (Nat.one_le_pow l.length b hb)
  omega

/-! ## The token buffer -/

theorem safeDigitsLoop_spec (base : Base) (total n : ℕ) (htotal : total + 1 = base.val ^ (n + 1))
    (hfixnum : base.val ^ n ≤ mostPositiveFixnum + 1) :
    n ≤ safeDigitsLoop base total n ∧ base.val ^ safeDigitsLoop base total n ≤
      mostPositiveFixnum + 1 := by
  induction total, n using safeDigitsLoop.induct base with
  | case1 total n h =>
    rw [safeDigitsLoop, if_pos h]
    exact ⟨le_rfl, hfixnum⟩
  | case2 total n h ih =>
    rw [safeDigitsLoop, if_neg h]
    have hnext : total * base.val + (base.val - 1) + 1 = base.val ^ (n + 1 + 1) := by
      rw [pow_succ, ← htotal, Nat.add_assoc, Nat.sub_add_cancel base.one_lt.le]
      ring
    obtain ⟨hle, hpow⟩ := ih hnext (by omega)
    exact ⟨by omega, hpow⟩

theorem integerReaderSafeDigits_spec (base : Base) :
    0 < integerReaderSafeDigits base ∧ base.val ^ integerReaderSafeDigits base ≤
      mostPositiveFixnum + 1 := by
  have h36 := base.le_36
  have hone := base.one_lt
  have hstart : ¬mostPositiveFixnum < base.val - 1 :=
    not_lt.2 (le_trans (by omega : base.val - 1 ≤ 35) (by decide))
  obtain ⟨hle, hpow⟩ := safeDigitsLoop_spec base ((base.val - 1) * base.val + (base.val - 1)) 1
    (by
      obtain ⟨b, hb⟩ : ∃ b, base.val = b + 1 := ⟨base.val - 1, by omega⟩
      rw [hb, Nat.add_sub_cancel]
      ring)
    (by
      rw [pow_one]
      exact h36.trans (by decide))
  have heq : integerReaderSafeDigits base =
      safeDigitsLoop base ((base.val - 1) * base.val + (base.val - 1)) 1 := by
    rw [integerReaderSafeDigits, safeDigitsLoop, if_neg hstart]
  rw [heq]
  exact ⟨hle, hpow⟩

theorem makeIntegerLoop_digits {l : List ℕ} (hl : ∀ d ∈ l, d < base.val) {digitCount acc result : ℕ}
    (hcount : digitCount < integerReaderSafeDigits base) (hacc : acc < base.val ^ digitCount) :
    makeIntegerLoop ucdDecimalDigit base (l.map digitChar) digitCount acc result =
      some (horner base.val (result * base.val ^ digitCount + acc) l) := by
  induction l generalizing digitCount acc result with
  | nil =>
    rw [map_nil, makeIntegerLoop]
    split
    · rename_i h0
      rw [h0, Nat.zero_mul, Nat.zero_add]
      rfl
    · rfl
  | cons d l ih =>
    have hd := hl d mem_cons_self
    have hl' : ∀ d ∈ l, d < base.val := fun d hd => hl d (mem_cons_of_mem _ hd)
    obtain ⟨hsafe, hpow⟩ := integerReaderSafeDigits_spec base
    have hacc' : d + acc * base.val < base.val ^ (digitCount + 1) := by
      rw [pow_succ]
      calc d + acc * base.val < base.val + acc * base.val := Nat.add_lt_add_right hd _
        _ = (acc + 1) * base.val := by ring
        _ ≤ base.val ^ digitCount * base.val := Nat.mul_le_mul_right _ hacc
    have hfixnum : ¬mostPositiveFixnum < d + acc * base.val := by
      have hmono : base.val ^ (digitCount + 1) ≤ base.val ^ integerReaderSafeDigits base :=
        Nat.pow_le_pow_right base.one_lt.le hcount
      omega
    rw [map_cons, makeIntegerLoop, if_neg (digitChar_ne d (hd.trans_le base.le_36)).1,
      digitCharP_digitChar ucdDecimalDigit hd, bind_eq_bind, bind_some]
    have hhorner : horner base.val (result * base.val ^ digitCount + acc) (d :: l) =
        horner base.val (result * base.val ^ (digitCount + 1) + (d + acc * base.val)) l := by
      rw [horner_cons, pow_succ]
      congr 1
      ring
    rw [if_neg hfixnum, hhorner]
    split
    · rename_i hfull
      rw [ih hl' hsafe (by rw [pow_zero]; exact Nat.one_pos), pow_zero, Nat.mul_one,
        Nat.add_zero, hfull]
    · rw [ih hl' (by omega) hacc']

theorem magnitudeOf_eq (base : Base) (n : ℕ) :
    ∃ d l, magnitudeOf base n = (d :: l).map digitChar ∧ (∀ e ∈ d :: l, e < base.val) ∧
      horner base.val 0 (d :: l) = n := by
  obtain ⟨d, l, h⟩ := exists_cons_of_ne_nil (numeral_ne_nil base.one_lt n)
  refine ⟨d, l, by rw [magnitudeOf, h], fun e he => lt_of_mem_numeral base.one_lt (h ▸ he), ?_⟩
  rw [← h, horner_numeral base.one_lt]

/-- What a loop reads of the magnitude, it reads of the numeral, with the sign before it. -/
theorem makeInteger_numeralOf (base : Base) (n : ℤ) :
    makeInteger ucdDecimalDigit base (numeralOf base n) = some n := by
  obtain ⟨d, l, hmag, hlt, hvalue⟩ := magnitudeOf_eq base n.natAbs
  obtain ⟨-, hminus, hplus, -⟩ := digitChar_ne d ((hlt d mem_cons_self).trans_le base.le_36)
  have hloop : makeIntegerLoop ucdDecimalDigit base ((d :: l).map digitChar) 0 0 0 =
      some n.natAbs := by
    rw [makeIntegerLoop_digits ucdDecimalDigit hlt (integerReaderSafeDigits_spec base).1
      Nat.one_pos, Nat.zero_mul, Nat.zero_add, hvalue]
  unfold numeralOf
  rw [hmag]
  split
  · rw [makeInteger, if_pos rfl, hloop, map_some]
    congr 1
    omega
  rw [map_cons] at hloop ⊢
  rw [makeInteger, if_neg hminus, if_neg hplus, hloop, map_some]
  congr 1
  omega

/-! ## Strings -/

theorem maxLengthLoop_spec (base : Base) (mi i : ℕ) (hmi : mi + 1 = base.val ^ i) (hpos : 0 < i)
    (hword : base.val ^ (i - 1) ≤ 2 ^ nWordBits) :
    base.val ^ maxLengthLoop base mi i ≤ 2 ^ nWordBits := by
  induction mi, i using maxLengthLoop.induct base with
  | case1 mi i h =>
    rw [maxLengthLoop, if_pos h]
    exact hword
  | case2 mi i h ih =>
    rw [maxLengthLoop, if_neg h]
    refine ih ?_ (Nat.succ_pos i) ?_
    · rw [pow_succ, ← hmi, Nat.add_assoc, Nat.sub_add_cancel base.one_lt.le]
      ring
    · rw [Nat.add_sub_cancel, ← hmi]
      have := Nat.two_pow_pos nWordBits
      omega

theorem pow_maxLength_le (base : Base) : base.val ^ maxLength base ≤ 2 ^ nWordBits := by
  refine maxLengthLoop_spec base _ 1 ?_ Nat.one_pos ?_
  · rw [pow_one, Nat.sub_add_cancel base.one_lt.le]
  · rw [Nat.sub_self, pow_zero]
    exact Nat.one_le_two_pow

theorem compute_digits {limit : Option ℕ} {junkAllowed : Bool} {l : List ℕ}
    (hl : ∀ d ∈ l, d < base.val) {result : ℕ}
    {foundDigit : Bool} (hlimit : ∀ m, limit = some m → horner base.val result l < m) :
    compute ucdDecimalDigit limit base.val junkAllowed (l.map digitChar) result foundDigit =
      some (.ok ⟨horner base.val result l, foundDigit || !l.isEmpty, []⟩) := by
  induction l generalizing result foundDigit with
  | nil =>
    rw [map_nil, compute, isEmpty_nil, Bool.not_true, Bool.or_false]
    rfl
  | cons d l ih =>
    have hd := hl d mem_cons_self
    have hnext : horner base.val result (d :: l) = horner base.val (d + result * base.val) l := by
      rw [horner_cons, Nat.add_comm]
    have hbelow : limit.all (fun limit => d + result * base.val < limit) = true := by
      rcases hm : limit with _ | m
      · rfl
      · have hle := le_horner base.one_lt.le (d + result * base.val) l
        exact decide_eq_true (hle.trans_lt (hnext ▸ hlimit m hm))
    rw [map_cons, compute, digitCharP_digitChar ucdDecimalDigit hd]
    dsimp only
    rw [if_pos hbelow, ih (fun d hd => hl d (mem_cons_of_mem _ hd)) fun m hm => hnext ▸
      hlimit m hm, hnext, Bool.true_or, isEmpty_cons, Bool.not_false, Bool.or_true]

theorem parseIntegerBounded_numeralOf {wordLength : Option ℕ}
    (hword : ∀ m, wordLength = some m → base.val ^ m ≤ 2 ^ nWordBits) (n : ℤ) (junkAllowed : Bool) :
    parseIntegerBounded ucdDecimalDigit wordLength base.val (numeralOf base n) 0 none junkAllowed =
      some (.ok (some n, (numeralOf base n).length)) := by
  obtain ⟨d, l, hmag, hlt, hvalue⟩ := magnitudeOf_eq base n.natAbs
  obtain ⟨-, hminus, hplus, hwhite⟩ := digitChar_ne d ((hlt d mem_cons_self).trans_le base.le_36)
  -- The number is below the power for its length.
  have hloop : ∀ limit, limit = wordLength.bind (fun maxLength =>
      if ((d :: l).map digitChar).length ≤ maxLength then some (2 ^ nWordBits) else none) →
      compute ucdDecimalDigit limit base.val junkAllowed ((d :: l).map digitChar) 0 false =
        some (.ok ⟨n.natAbs, true, []⟩) := by
    intro limit hlimit
    rw [compute_digits ucdDecimalDigit hlt, hvalue]
    · rfl
    intro m hm
    obtain ⟨maxLength, hmax, hite⟩ := bind_eq_some_iff.1 (hlimit ▸ hm)
    split at hite
    · rw [← some_inj.1 hite]
      rename_i hlen
      rw [length_map] at hlen
      exact (horner_lt hlt).trans_le
        ((Nat.pow_le_pow_right base.one_lt.le hlen).trans (hword maxLength hmax))
    · cases hite
  have hbounds :
    parseIntegerBounded ucdDecimalDigit wordLength base.val (numeralOf base n) 0 none junkAllowed =
      parseIntegerBody ucdDecimalDigit wordLength base.val junkAllowed (numeralOf base n).length
      (numeralOf base n) := by
    rw [parseIntegerBounded, getD_none, if_pos ⟨Nat.zero_le _, le_rfl⟩, drop_zero,
      Nat.sub_zero, take_length]
  rw [hbounds]
  unfold numeralOf
  rw [hmag]
  split
  · rw [parseIntegerBody, dropWhile_cons_of_neg (by decide)]
    dsimp only
    rw [if_pos (.inl rfl), hloop _ rfl]
    dsimp only
    rw [if_pos rfl, if_pos rfl, length_nil, Nat.sub_zero, show (-(n.natAbs : ℤ)) = n by omega]
  · rw [map_cons, parseIntegerBody,
      dropWhile_cons_of_neg (by rw [hwhite]; exact Bool.false_ne_true)]
    dsimp only
    rw [if_neg (not_or.2 ⟨hminus, hplus⟩), ← map_cons, hloop _ rfl]
    dsimp only
    rw [if_pos rfl, if_neg hminus, length_nil, Nat.sub_zero, show (n.natAbs : ℤ) = n by omega]

/-- After any calls, an integer is written as its numeral in the base, and read back from it. -/
theorem integer_print_read (fullWidth : Bool) (ops : List CacheOp) :
    ∃ cache, ops.foldlM (CacheOp.run fullWidth) initialPowerCache = some cache ∧ ∀ fresh n base,
      (outputIntegerInBase fullWidth fresh cache n base).map Prod.fst = some (numeralOf base n) ∧
      makeInteger ucdDecimalDigit base (numeralOf base n) = some n ∧
      ∀ junkAllowed, parseInteger ucdDecimalDigit (numeralOf base n) 0 none base junkAllowed =
          some (.ok (some n, (numeralOf base n).length)) ∧
        parseIntegerTransformed ucdDecimalDigit base (numeralOf base n) 0 none junkAllowed =
          some (.ok (some n, (numeralOf base n).length)) := by
  obtain ⟨cache, hrun, hlaw⟩ := run_cacheLaw fullWidth cacheLaw_initial ops
  refine ⟨cache, hrun, fun fresh n base => ⟨?_, makeInteger_numeralOf ucdDecimalDigit base n,
    fun junkAllowed => ⟨?_, ?_⟩⟩⟩
  · obtain ⟨cache', hwritten, -⟩ := outputIntegerInBase_numeral fullWidth fresh hlaw n base
    rw [hwritten]
    rfl
  · apply parseIntegerBounded_numeralOf
    intro m hm
    cases hm
  apply parseIntegerBounded_numeralOf
  intro m hm
  rw [← some_inj.1 hm]
  exact pow_maxLength_le base

end Sbcl.Reader
