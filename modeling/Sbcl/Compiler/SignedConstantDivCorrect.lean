import Sbcl.Compiler.SignedConstantDiv

/-!
# Division of a signed word by a constant: correctness

* `Reciprocal.neg_mul_ediv` : the product of a negative dividend with a reciprocal is one below the
  truncated quotient;
* `signedProductHigh_eq` : both shapes of the product are its high part;
* `signedTruncateForm_eq` : the sign of the dividend corrects the product;
* `signed_truncate_by_constant` : quotient and remainder.
-/

namespace Sbcl.Compiler

variable {y m n : ℤ}

theorem neg_mul_ediv {D B : ℤ} (h : Reciprocal D y B m) (hstrict : D < m * y) (hD : 0 < D)
    (hy : 0 < y) (hn : 0 < n) (hnB : n ≤ B) : -n * m / D = -(n / y) - 1 := by
  have hq : n / y * y ≤ n := Int.ediv_mul_le n hy.ne'
  have hlt : n + 1 ≤ (n / y + 1) * y := Int.lt_ediv_add_one_mul_self n hy
  have hm : 0 < m := by
    by_contra hnot
    have hle : m * y ≤ 0 := Int.mul_nonpos_of_nonpos_of_nonneg (not_lt.1 hnot) hy.le
    omega
  have hB : 0 < B := hn.trans_le hnB
  -- the product is above the quotient and not above the next integer
  have hlow : n / y * D < n * m := by
    rcases (Int.ediv_nonneg hn.le hy.le).lt_or_eq with hpos | hzero
    · calc n / y * D < n / y * (m * y) := Int.mul_lt_mul_of_pos_left hstrict hpos
        _ = n / y * y * m := by ring
        _ ≤ n * m := Int.mul_le_mul_of_nonneg_right hq hm.le
    · rw [← hzero, zero_mul]
      exact Int.mul_pos hn hm
  have hhigh : n * m ≤ (n / y + 1) * D := by
    refine le_of_mul_le_mul_right (a := y * B) ?_ (by positivity)
    calc n * m * (y * B) = n * (m * y * B) := by ring
      _ ≤ n * (D * (B + 1)) := Int.mul_le_mul_of_nonneg_left h.upper hn.le
      _ = D * (n * B + n) := by ring
      _ ≤ D * (n * B + B) := by gcongr
      _ = D * B * (n + 1) := by ring
      _ ≤ D * B * ((n / y + 1) * y) := by gcongr
      _ = (n / y + 1) * D * (y * B) := by ring
  refine le_antisymm (Int.lt_add_one_iff.1 ?_) ?_
  · rw [Int.ediv_lt_iff_lt_mul hD]
    linarith
  · rw [Int.le_ediv_iff_mul_le hD]
    linarith

theorem reciprocal_strict {B : ℤ} {k : ℕ} (h : Reciprocal (2 ^ k) y B m) (hy : 0 < y)
    (hp : ∀ k : ℕ, y ≠ 2 ^ k) : 2 ^ k < m * y := by
  refine lt_of_le_of_ne h.lower fun heq => ?_
  obtain ⟨n, rfl⟩ := Int.eq_ofNat_of_zero_le hy.le
  have hdvd : (n : ℤ) ∣ ((2 ^ k : ℕ) : ℤ) := ⟨m, by push_cast; rw [heq, Int.mul_comm]⟩
  obtain ⟨j, -, hj⟩ := (Nat.dvd_prime_pow Nat.prime_two).1 (Int.natCast_dvd_natCast.1 hdvd)
  exact hp j (by rw [hj]; push_cast; rfl)

variable {x : ℤ} {p : ℕ}

theorem isSignedWord_of_fits (hp : p ≤ 63) (hx : -2 ^ p ≤ x) (hx' : x < 2 ^ p) :
    IsSignedWord x := by
  have hpow : (2 : ℤ) ^ p ≤ 2 ^ 63 := pow_le_pow_right₀ (by decide) hp
  exact ⟨by omega, by omega⟩

theorem signedMultiplyHigh_eq {a b : ℤ} (ha : IsSignedWord a) (hb : IsSignedWord b) :
    signedMultiplyHigh a b = some (a * b / 2 ^ 64) := by
  unfold signedMultiplyHigh
  rw [if_pos ⟨ha, hb⟩]
  exact congrArg some (ash_neg (a * b) 64)

theorem trulyThe_eq {lo hi : ℤ} (hlo : lo ≤ n) (hhi : n ≤ hi) : trulyThe lo hi n = some n :=
  if_pos ⟨hlo, hhi⟩

theorem trulyTheSignedWord_eq (h : IsSignedWord n) : trulyTheSignedWord n = some n :=
  trulyThe_eq h.1 (by have := h.2; omega)

theorem isSignedWord_high (hx : IsSignedWord x) (h0 : 0 ≤ m) (hm : m < 2 ^ 64) :
    IsSignedWord (x * m / 2 ^ 64) := by
  rcases le_or_gt 0 x with h | h
  · have hlow : 0 ≤ x * m / 2 ^ 64 := Int.ediv_nonneg (Int.mul_nonneg h h0) (by decide)
    have hhigh : x * m / 2 ^ 64 ≤ x := by
      refine Int.ediv_le_of_le_mul (by decide) ?_
      exact Int.mul_le_mul_of_nonneg_left hm.le h
    exact ⟨by omega, by have := hx.2; omega⟩
  · have hlow : x ≤ x * m / 2 ^ 64 := by
      rw [Int.le_ediv_iff_mul_le (by decide)]
      exact Int.mul_le_mul_of_nonpos_left h.le hm.le
    have hhigh : x * m / 2 ^ 64 ≤ 0 :=
      Int.ediv_nonpos_of_nonpos_of_neg (Int.mul_nonpos_of_nonpos_of_nonneg h.le h0) (by decide)
    exact ⟨by have := hx.1; omega, by omega⟩

theorem signedProductHigh_eq (hx : IsSignedWord x) (h0 : 0 ≤ m) (hm : m < 2 ^ 64) :
    signedProductHigh m x = some (x * m / 2 ^ 64) := by
  unfold signedProductHigh
  split
  · rename_i hshort
    exact signedMultiplyHigh_eq hx ⟨by omega, hshort⟩
  rename_i hlong
  have hlong' : 2 ^ 63 ≤ m := not_lt.1 hlong
  have hsum : x + x * (m - 2 ^ 64) / 2 ^ 64 = x * m / 2 ^ 64 := by
    rw [add_comm, mul_sub_ediv_add (by decide)]
  rw [nWordBits, signedMultiplyHigh_eq hx ⟨by omega, by omega⟩, Option.bind_some, hsum]
  exact trulyTheSignedWord_eq (isSignedWord_high hx h0 hm)

/-! ## The quotient -/

theorem truncate_eq_abs (x y : ℤ) :
    truncate x y = if 0 ≤ x then (if y < 0 then -(x / |y|) else x / |y|) else if y < 0 then -x /
      |y| else -(-x / |y|) := by
  have hpos {a : ℤ} (ha : 0 ≤ a) : a.tdiv y = if y < 0 then -(a / |y|) else a / |y| := by
    split
    · rename_i hy
      rw [abs_of_neg hy, ← Int.tdiv_eq_ediv_of_nonneg ha, Int.tdiv_neg, neg_neg]
    · rename_i hy
      rw [abs_of_nonneg (not_lt.1 hy), Int.tdiv_eq_ediv_of_nonneg ha]
  split
  · rename_i hx
    exact hpos hx
  rename_i hx
  have hneg : truncate x y = -(-x).tdiv y := by rw [Int.neg_tdiv, neg_neg]
  rw [hneg, hpos (by omega)]
  split
  · exact neg_neg _
  · rfl

theorem signedTruncateForm_eq {s : ℕ} (hM : Multiplier |y| p m s) (hy : 0 < |y|)
    (hpow : ∀ k : ℕ, |y| ≠ 2 ^ k)
    (hp : p ≤ 63) (hx : -2 ^ p ≤ x) (hx' : x < 2 ^ p) :
    signedTruncateForm y m s x = some (truncate x y) := by
  have hword : IsSignedWord x := isSignedWord_of_fits hp hx hx'
  have hcode : ash (x * m / 2 ^ 64) (-s) = x * m / 2 ^ (64 + s) := by
    rw [ash_neg, Int.ediv_ediv_of_nonneg (by decide), ← pow_add]
  have hsign : ash x (1 - nWordBits) = x / 2 ^ 63 := ash_neg x 63
  have hform : signedTruncateForm y m s x =
      some (if y < 0 then x / 2 ^ 63 - x * m / 2 ^ (64 + s) else x * m / 2 ^ (64 + s) -
        x / 2 ^ 63) := by
    rw [← hcode, ← hsign]
    unfold signedTruncateForm
    rw [signedProductHigh_eq hword hM.nonneg (hM.word hp)]
    rfl
  rw [hform, truncate_eq_abs]
  rcases le_or_gt 0 x with h | h
  · have hzero : x / 2 ^ 63 = 0 := Int.ediv_eq_zero_of_lt h hword.2
    rw [hM.reciprocal.mul_ediv (by positivity) hy h hx', hzero, zero_sub, sub_zero, if_pos h]
  have hone : x / 2 ^ 63 = -1 := by
    have := hword.1
    omega
  have hprod : x * m / 2 ^ (64 + s) = -(-x / |y|) - 1 := by
    have := neg_mul_ediv hM.reciprocal (reciprocal_strict hM.reciprocal hy hpow) (by positivity) hy
      (show 0 < -x by omega) (show -x ≤ 2 ^ p by omega)
    rwa [neg_neg] at this
  rw [hprod, hone, if_neg (not_le.2 h)]
  congr 1
  split <;> ring

theorem logand_pred_ne_zero_of_neg (hy : y < 0) : logand y (y - 1) ≠ 0 := by
  obtain ⟨k, r, hr, hy'⟩ := exists_two_pow_mul_odd (show 0 < -y by omega)
  have hodd : y = 2 ^ k * (2 * (-r - 1) + 1) := by linarith
  rw [hodd, logand_pred_self]
  have hpow : (2 : ℤ) ^ k ≠ 0 := by positivity
  have hr' : 2 * (-r - 1) ≠ 0 := by omega
  exact mul_ne_zero hpow hr'

theorem three_le_abs (hy : y ≠ 0) (hpow : ∀ k : ℕ, |y| ≠ 2 ^ k) : 3 ≤ |y| := by
  have h0 : 0 < |y| := abs_pos.2 hy
  have h1 := hpow 0
  have h2 := hpow 1
  omega

theorem abs_le_of_isSignedWord (hy : IsSignedWord y) : |y| ≤ 2 ^ 64 :=
  abs_le.2 ⟨by have := hy.1; omega, by have := hy.2; omega⟩

theorem genSignedTruncateByConstantExpr_spec (hy : IsSignedWord y) (hy0 : y ≠ 0)
    (hpow : ∀ k : ℕ, |y| ≠ 2 ^ k) (hp : p ≤ 63) :
    ∃ expr, genSignedTruncateByConstantExpr y p = some expr ∧ ∀ x, -2 ^ p ≤ x → x < 2 ^ p →
      expr x = some (truncate x y) := by
  have h3 : 3 ≤ |y| := three_le_abs hy0 hpow
  have hM := chooseMultiplier_spec h3 (abs_le_of_isSignedWord hy) (show p ≤ 64 by omega)
  have haver : logand y (y - 1) ≠ 0 := by
    rcases lt_or_gt_of_ne hy0 with hneg | hpos
    · exact logand_pred_ne_zero_of_neg hneg
    · rw [abs_of_pos hpos] at h3 hpow
      exact logand_pred_ne_zero h3 hpow
  exact ⟨_, if_pos ⟨hy, haver⟩, fun x hx hx' => signedTruncateForm_eq hM (by omega) hpow hp hx hx'⟩

/-! ## The transform -/

theorem integerLength_le_of_isSignedWord (h : IsSignedWord n) : integerLength n ≤ 63 :=
  integerLength_le_of_fits ⟨h.1, h.2⟩

theorem DividendType.precision_spec {type : DividendType} (h : type.Has x) :
    ∃ p : ℕ, type.precision.1 = p ∧ p ≤ 63 ∧ -2 ^ p ≤ x ∧ x < 2 ^ p ∧ |x| ≤ type.precision.2 := by
  cases type with
  | other negative => exact ⟨63, rfl, le_rfl, h.1.1, h.1.2, abs_le.2 ⟨h.1.1, h.1.2.le⟩⟩
  | bounded low high =>
    obtain ⟨hlow, hhigh, hlx, hxh⟩ := h
    refine ⟨max (integerLength high) (integerLength low), (Nat.cast_max ..).symm,
      max_le (integerLength_le_of_isSignedWord hhigh) (integerLength_le_of_isSignedWord hlow),
      ?_, ?_, ?_⟩
    · exact ((fits_integerLength low).mono (le_max_right ..)).1.trans hlx
    · exact hxh.trans_lt ((fits_integerLength high).mono (le_max_left ..)).2
    refine abs_le.2 ⟨?_, hxh.trans (le_max_left ..)⟩
    calc -max high |low| ≤ -|low| := neg_le_neg (le_max_right ..)
      _ ≤ low := neg_abs_le low
      _ ≤ x := hlx

theorem abs_truncate (x y : ℤ) : |truncate x y| = |x| / |y| := by
  rw [Int.abs_eq_natAbs, Int.abs_eq_natAbs, Int.abs_eq_natAbs, Int.natAbs_tdiv]
  rfl

theorem abs_tmod (x y : ℤ) : |x.tmod y| = |x| % |y| := by
  rw [Int.abs_eq_natAbs, Int.abs_eq_natAbs, Int.abs_eq_natAbs, Int.natAbs_tmod]
  rfl

theorem isSignedWord_truncate_mul (y : ℤ) (hx : IsSignedWord x) :
    IsSignedWord (truncate x y * y) := by
  have hrem : truncate x y * y = x - x.tmod y := by rw [Int.tmod_def, mul_comm]; ring
  have habs : |x.tmod y| ≤ |x| := by
    rw [Int.abs_eq_natAbs, Int.abs_eq_natAbs, Int.natAbs_tmod]
    exact_mod_cast Nat.mod_le x.natAbs y.natAbs
  rw [hrem]
  rcases le_or_gt 0 x with h | h
  · have hmod : 0 ≤ x.tmod y := Int.tmod_nonneg y h
    rw [abs_of_nonneg h, abs_of_nonneg hmod] at habs
    exact ⟨by omega, by have := hx.2; omega⟩
  have hmod : x.tmod y ≤ 0 := by
    have := Int.tmod_nonneg y (show 0 ≤ -x by omega)
    rw [Int.neg_tmod] at this
    omega
  rw [abs_of_neg h, abs_of_nonpos hmod] at habs
  exact ⟨by have := hx.1; omega, by omega⟩

theorem truncate_ranges {maxX : ℤ} (hy : y ≠ 0) (hmax : |x| ≤ maxX) :
    |truncate x y| ≤ truncate maxX |y| ∧ |x - truncate x y * y| ≤ |y| - 1 := by
  have hy0 : 0 < |y| := abs_pos.2 hy
  have hrem : x - truncate x y * y = x.tmod y := by rw [Int.tmod_def, mul_comm]
  refine ⟨?_, ?_⟩
  · rw [abs_truncate, truncate, Int.tdiv_eq_ediv_of_nonneg ((abs_nonneg x).trans hmax)]
    exact Int.ediv_le_ediv hy0 hmax
  · rw [hrem, abs_tmod]
    exact Int.le_sub_one_of_lt (Int.emod_lt_of_pos _ hy0)

/-- What the generated forms evaluate to, where the expression gives the truncated quotient. -/
theorem signedTruncateBody_eq {maxX : ℤ} {expr : ℤ → Option ℤ}
    (hexpr : expr x = some (truncate x y)) (hx : IsSignedWord x)
    (hy : y ≠ 0) (hmax : |x| ≤ maxX) :
    signedTruncateBody y maxX expr x = some (truncate x y, x - truncate x y * y) := by
  obtain ⟨hquot, hrem⟩ := truncate_ranges hy hmax
  have hr := abs_le.1 hrem
  unfold signedTruncateBody
  simp only [hexpr, Option.bind_eq_bind, Option.bind_some,
    trulyThe_eq (abs_le.1 hquot).1 (abs_le.1 hquot).2,
    trulyTheSignedWord_eq (isSignedWord_truncate_mul y hx),
      trulyThe_eq (show 1 - |y| ≤ x - truncate x y * y by omega) hr.2]
  rfl

/-- Quotient and remainder of a signed word by a constant that is not zero, one or a power of two.
-/
theorem signed_truncate_by_constant (y : ℤ) (hy : IsSignedWord y) (hy0 : y ≠ 0)
    (hpow : ∀ k : ℕ, |y| ≠ 2 ^ k) :
    (∀ p : ℕ, p ≤ 63 → ∃ expr, genSignedTruncateByConstantExpr y p = some expr ∧
      ∀ x : ℤ, -2 ^ p ≤ x → x ≤ 2 ^ p - 1 → expr x = some (truncate x y)) ∧
    (∀ (type : DividendType) (x : ℤ), type.Has x → (0 < y → type.Negative) → ∃ body,
      signedTruncateByConstant y type = some body ∧
      body x = some (truncate x y, x - truncate x y * y)) := by
  refine ⟨fun p hp => ?_, fun type x hx hneg => ?_⟩
  · obtain ⟨expr, hgen, heval⟩ := genSignedTruncateByConstantExpr_spec hy hy0 hpow hp
    exact ⟨expr, hgen, fun x hx hx' => heval x hx (by omega)⟩
  obtain ⟨p, hprec, hp, hlow, hhigh, hmax⟩ := type.precision_spec hx
  have hxw : IsSignedWord x := isSignedWord_of_fits hp hlow hhigh
  obtain ⟨expr, hgen, heval⟩ := genSignedTruncateByConstantExpr_spec hy hy0 hpow hp
  have hkeep : ¬(logand |y| (|y| - 1) = 0 ∨ 0 < y ∧ ¬type.Negative) := by
    rintro (h | ⟨hpos, h⟩)
    · exact logand_pred_ne_zero (three_le_abs hy0 hpow) hpow h
    · exact h (hneg hpos)
  refine ⟨signedTruncateBody y type.precision.2 expr, ?_,
    signedTruncateBody_eq (heval x hlow hhigh) hxw hy0 hmax⟩
  unfold signedTruncateByConstant
  rw [if_neg hkeep, hprec, hgen]
  rfl

theorem signed_truncate_by_constant_seven :
    (∀ p : ℕ, p ≤ 63 → ∃ expr, genSignedTruncateByConstantExpr (-7) p = some expr ∧
      ∀ x : ℤ, -2 ^ p ≤ x → x ≤ 2 ^ p - 1 → expr x = some (truncate x (-7))) ∧
    (∀ (type : DividendType) (x : ℤ), type.Has x → (0 < (-7 : ℤ) → type.Negative) →
      ∃ body, signedTruncateByConstant (-7) type = some body ∧
        body x = some (truncate x (-7), x - truncate x (-7) * -7)) :=
  signed_truncate_by_constant (-7) (by decide) (by decide) (ne_two_pow 2 (by decide) (by decide))

example : ((genSignedTruncateByConstantExpr (-7) 63).bind fun expr => expr (-2 ^ 63)) =
    some (2 ^ 63 / 7) := by decide

end Sbcl.Compiler
