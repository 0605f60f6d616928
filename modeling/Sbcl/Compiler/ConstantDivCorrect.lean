import Sbcl.Compiler.ConstantDiv
import Sbcl.Lib.Reciprocal

/-!
# Division of a word by a constant word: correctness

* `mLow`, `mHigh` : the two multipliers of `choose-multiplier` at a shift, and how one shift follows
  from the next;
* `Multiplier` : what `choose-multiplier` promises about its two values (`chooseMultiplier_spec`);
* `unsignedDivForm_high`, `_word`, `_shift` : the three shapes of the quotient;
* `truncateByConstant_correct` : quotient and remainder.
-/

namespace Sbcl.Compiler

open Int

/-- `m-low` when the shift is `s`. -/
def mLow (y : ℤ) (s : ℕ) : ℤ := 2 ^ (64 + s) / y

/-- `m-high` when the shift is `s`, for the precision `p`. -/
def mHigh (y : ℤ) (p s : ℕ) : ℤ := (2 ^ (64 + s) + 2 ^ (64 + s - p)) / y

variable {y : ℤ}

theorem ediv_ediv_two {a b : ℤ} (hy : 0 < y) (h : a = b * 2) : a / y / 2 = b / y := by
  rw [h, ediv_ediv_of_nonneg hy.le, mul_ediv_mul_of_pos_left _ _ (by decide)]

theorem mLow_half (hy : 0 < y) (s : ℕ) : mLow y (s + 1) / 2 = mLow y s :=
  ediv_ediv_two hy (pow_succ 2 (64 + s))

variable {p : ℕ}

theorem mHigh_half (hy : 0 < y) (hp : p ≤ 64) (s : ℕ) : mHigh y p (s + 1) / 2 = mHigh y p s := by
  refine ediv_ediv_two hy ?_
  rw [add_mul, ← pow_succ, ← pow_succ, show 64 + s - p + 1 = 64 + (s + 1) - p by omega]
  rfl

/-- Where the loop stops: the multipliers still differ, but their halves do not, unless the shift is
zero. -/
theorem chooseMultiplierLoop_eq (hy : 0 < y) (hp : p ≤ 64) (s : ℕ)
    (hlt : mLow y s < mHigh y p s) :
    ∃ t ≤ s, chooseMultiplierLoop s (mLow y s) (mHigh y p s) = (mHigh y p t, t) ∧
      mLow y t < mHigh y p t ∧ (t = 0 ∨ mHigh y p t / 2 ≤ mLow y t / 2) := by
  induction s with
  | zero => exact ⟨0, le_rfl, rfl, hlt, Or.inl rfl⟩
  | succ s ih =>
    unfold chooseMultiplierLoop
    rw [ash_neg_one, ash_neg_one]
    split_ifs with hc
    · rw [mLow_half hy, mHigh_half hy hp] at hc ⊢
      obtain ⟨t, hts, h⟩ := ih hc
      exact ⟨t, by omega, h⟩
    · exact ⟨s + 1, le_rfl, rfl, hlt, Or.inr (not_lt.1 hc)⟩

/-! ## The chosen multiplier -/

/-- What `choose-multiplier` promises about its multiplier `m` and its shift `s`. -/
structure Multiplier (y : ℤ) (p : ℕ) (m : ℤ) (s : ℕ) : Prop where
  reciprocal : Reciprocal (2 ^ (64 + s)) y (2 ^ p) m
  nonneg : 0 ≤ m
  /-- One bit more than a word, at most. -/
  lt : m < 2 ^ 65
  /-- With a bit to spare in the dividend, the multiplier is a word. -/
  word : p ≤ 63 → m < 2 ^ 64
  shift : 2 ^ 64 ≤ m → 1 ≤ s

theorem ld_bounds (hy : 2 ≤ y) : y ≤ 2 ^ ld y ∧ 2 ^ ld y < 2 * y := by
  have h0 : 0 ≤ y - 1 := by omega
  have h1 : y - 1 < 2 ^ ld y := lt_pow_integerLength h0
  have h2 : 0 < ld y := (lt_integerLength_iff h0 0).2 (by omega)
  have h3 : 2 ^ (ld y - 1) ≤ y - 1 := (lt_integerLength_iff h0 _).1 (Nat.sub_lt h2 one_pos)
  have h4 : (2 : ℤ) ^ ld y = 2 ^ (ld y - 1) * 2 := by rw [← pow_succ, Nat.sub_add_cancel h2]
  omega

theorem ld_le (hy : 2 ≤ y) (hy' : y ≤ 2 ^ 64) : ld y ≤ 64 :=
  (integerLength_le_iff (by omega) 64).2 (by omega)

theorem mLow_add_le_mHigh (hy : 2 ≤ y) {d : ℕ} (h : p + d ≤ 64) :
    mLow y (ld y) + 2 ^ d ≤ mHigh y p (ld y) := by
  have hy0 : 0 < y := by omega
  unfold mLow mHigh
  rw [← add_mul_ediv_right _ _ hy0.ne']
  refine Int.ediv_le_ediv hy0 (Int.add_le_add_left ?_ _)
  calc (2 : ℤ) ^ d * y ≤ 2 ^ d * 2 ^ ld y := by gcongr; exact (ld_bounds hy).1
    _ = 2 ^ (d + ld y) := (pow_add 2 d (ld y)).symm
    _ ≤ 2 ^ (64 + ld y - p) := pow_le_pow_right₀ (by decide) (by omega)

theorem mHigh_zero_lt (hy : 3 ≤ y) : mHigh y p 0 < 2 ^ 64 := by
  have hp : (2 : ℤ) ^ (64 + 0 - p) ≤ 2 ^ 64 := pow_le_pow_right₀ (by decide) (by omega)
  unfold mHigh
  rw [Int.ediv_lt_iff_lt_mul (by omega)]
  omega

variable {t : ℕ}

theorem mLow_lt (hy : 0 < y) (h : 2 ^ t < y) : mLow y t < 2 ^ 64 := by
  unfold mLow
  rw [Int.ediv_lt_iff_lt_mul hy, pow_add]
  omega

theorem mHigh_word_lt (hy : 0 < y) (ht : t ≤ 64) (h : 2 ^ t < 2 * y) (h1 : 1 ≤ t) :
    mHigh y 64 t < 2 ^ 65 := by
  obtain ⟨u, rfl⟩ := Nat.exists_eq_add_of_le' h1
  have hu : (2 : ℤ) ^ (u + 1) ≤ 2 ^ 64 := pow_le_pow_right₀ (by decide) ht
  unfold mHigh
  rw [Int.ediv_lt_iff_lt_mul hy, Nat.add_sub_cancel_left, pow_add 2 64]
  rw [pow_succ] at h hu ⊢
  omega

theorem multiplier_mHigh (hy : 3 ≤ y) (hy' : y ≤ 2 ^ 64) (hp : p ≤ 64) (ht : t ≤ ld y)
    (hlt : mLow y t < mHigh y p t) (hstop : t = 0 ∨ mHigh y p t / 2 ≤ mLow y t / 2) :
    Multiplier y p (mHigh y p t) t := by
  have hy0 : 0 < y := by omega
  have hlog : 2 ^ ld y < 2 * y := (ld_bounds (by omega)).2
  have hword (hp' : p ≤ 63) : mHigh y p t < 2 ^ 64 := by
    rcases hstop with rfl | hstop
    · exact mHigh_zero_lt hy
    have hfirst : mLow y (ld y) + 2 ^ 1 ≤ mHigh y p (ld y) :=
      mLow_add_le_mHigh (by omega) (by omega)
    have hne : t ≠ ld y := by
      rintro rfl
      omega
    have ht2 : (2 : ℤ) ^ t * 2 ≤ 2 ^ ld y := by
      rw [← pow_succ]
      exact pow_le_pow_right₀ (by decide) (by omega)
    have hlow : mLow y t < 2 ^ 64 := mLow_lt hy0 (by omega)
    omega
  have hzero (h : t = 0) : mHigh y p t < 2 ^ 64 := by
    subst h
    exact mHigh_zero_lt hy
  have h2t : (2 : ℤ) ^ t ≤ 2 ^ ld y := pow_le_pow_right₀ (by decide) ht
  exact
    { reciprocal := by
        refine Reciprocal.of_ediv hy0 (by positivity) ?_ hlt le_rfl
        rw [← pow_add, Nat.sub_add_cancel (by omega)]
      nonneg := by
        have : 0 ≤ mLow y t := ediv_nonneg (by positivity) hy0.le
        omega
      lt := by
        rcases Nat.eq_zero_or_pos t with h | h
        · have := hzero h
          omega
        rcases Nat.lt_or_ge p 64 with h64 | h64
        · have := hword (by omega)
          omega
        · obtain rfl : p = 64 := by omega
          exact mHigh_word_lt hy0 (ht.trans (ld_le (by omega) hy')) (by omega) h
      word := hword
      shift := fun h => by
        by_contra hn
        omega }

theorem chooseMultiplier_spec (hy : 3 ≤ y) (hy' : y ≤ 2 ^ 64) (hp : p ≤ 64) :
    Multiplier y p (chooseMultiplier y p).1 (chooseMultiplier y p).2 := by
  have h0 (n : ℕ) : (0 : ℤ) ≤ 2 ^ n := by positivity
  have hash : ash (2 ^ (64 + ld y)) (-(p : ℤ)) = 2 ^ (64 + ld y - p) := by
    rw [ash_two_pow _ (by omega)]
    congr 1
    omega
  have heq : chooseMultiplier y p =
      chooseMultiplierLoop (ld y) (mLow y (ld y)) (mHigh y p (ld y)) := by
    unfold chooseMultiplier
    simp only [nWordBits, truncate, hash]
    rw [tdiv_eq_ediv_of_nonneg (h0 _), tdiv_eq_ediv_of_nonneg (Int.add_nonneg (h0 _) (h0 _))]
    rfl
  have hy0 : 0 < y := by omega
  have hfirst : mLow y (ld y) + 2 ^ 0 ≤ mHigh y p (ld y) := mLow_add_le_mHigh (by omega) (by omega)
  obtain ⟨t, ht, hloop, hlt, hstop⟩ := chooseMultiplierLoop_eq hy0 hp (ld y) (by omega)
  rw [heq, hloop]
  exact multiplier_mHigh hy hy' hp ht hlt hstop

/-! ## The three shapes -/

theorem multiplyHigh_eq (a b : ℤ) : multiplyHigh a b = a * b / 2 ^ 64 := ash_neg (a * b) 64

theorem isWord_iff (n : ℤ) : IsWord n ↔ 0 ≤ n ∧ n < 2 ^ 64 := by
  unfold IsWord mostPositiveWord nWordBits
  omega

theorem Form.eval_word {env : Env} {a : Form} {n : ℤ} (ha : a.eval env = some n) (hn : IsWord n) :
    a.word.eval env = some n :=
  Form.eval_trulyThe ha hn.1 hn.2

theorem unsignedDivForm_high {maxX m x : ℤ} {s : ℕ} (hM : Multiplier y p m s) (hy : 0 < y)
    (hm : 2 ^ 64 ≤ m)
    (hx : IsWord x) (hxp : x < 2 ^ p) : (unsignedDivForm y maxX m 0 s).eval (Env.ofX x) =
      some (x / y) := by
  rw [isWord_iff] at hx
  have hlt := hM.lt
  have hm' : IsWord (m - 2 ^ 64) := (isWord_iff _).2 (by omega)
  set t := x * (m - 2 ^ 64) / 2 ^ 64 with ht
  have ht0 : 0 ≤ t := ediv_nonneg (Int.mul_nonneg hx.1 (by omega)) (by decide)
  have htx : t ≤ x := by
    refine lt_add_one_iff.1 ((Int.ediv_lt_iff_lt_mul (by decide)).2 ?_)
    have : x * (m - 2 ^ 64) ≤ x * 2 ^ 64 := Int.mul_le_mul_of_nonneg_left (by omega) hx.1
    omega
  have hword1 : IsWord (x - t) := (isWord_iff _).2 (by omega)
  have hword2 : IsWord (t + (x - t) / 2) := (isWord_iff _).2 (by omega)
  have hsum : t + x = x * m / 2 ^ 64 := mul_sub_ediv_add (by decide) x m
  have hshift : ash (t + (x - t) / 2) (1 - s) = x / y := by
    obtain ⟨u, rfl⟩ := Nat.exists_eq_add_of_le' (hM.shift hm)
    rw [show (1 - ((u + 1 : ℕ) : ℤ)) = -(u : ℤ) by push_cast; ring, ash_neg, add_sub_ediv_two, hsum,
      ediv_ediv_of_nonneg (by decide), ediv_ediv_of_nonneg (by positivity),
      ← hM.reciprocal.mul_ediv (by positivity) hy hx.1 hxp, pow_add, pow_succ']
    ring_nf
  have hxw : IsWord x := (isWord_iff x).2 hx
  have ht1 : (Form.multiplyHigh (.var .num) (.const (m - 2 ^ nWordBits))).eval
      ((Env.ofX x).bind .num x) = some t := by
    rw [Form.eval_multiplyHigh rfl rfl hxw hm', multiplyHigh_eq]
  rw [unsignedDivForm, if_pos (show (2 : ℤ) ^ nWordBits ≤ m from hm), Form.eval_letStar rfl,
    Form.eval_letStar ht1]
  have h1 : (Form.word (.sub (.var .num) (.var .t1))).eval (((Env.ofX x).bind .num x).bind .t1 t) =
      some (x - t) :=
    Form.eval_word (Form.eval_sub rfl rfl) hword1
  rw [Form.eval_ash (Form.eval_word (Form.eval_add rfl (Form.eval_ash h1 rfl)) ?_) rfl,
    ash_neg_one, hshift]
  rwa [ash_neg_one]

theorem unsignedDivForm_word {maxX m x : ℤ} {s k : ℕ} (hM : Multiplier y p m s) (hy : 0 < y)
    (hm : m < 2 ^ 64) (hx : IsWord x) (hxp : x / 2 ^ k < 2 ^ p) (hxm : x ≤ maxX) :
    (unsignedDivForm (2 ^ k * y) maxX m k s).eval (Env.ofX x) = some (x / (2 ^ k * y)) := by
  have hmw : IsWord m := (isWord_iff m).2 ⟨hM.nonneg, hm⟩
  rw [isWord_iff] at hx
  have hx0 : 0 ≤ x / 2 ^ k := ediv_nonneg hx.1 (by positivity)
  have hquot : x / 2 ^ k * m / 2 ^ (64 + s) = x / (2 ^ k * y) := by
    rw [hM.reciprocal.mul_ediv (by positivity) hy hx0 hxp, ediv_ediv_of_nonneg (by positivity)]
  rw [unsignedDivForm, if_neg (show ¬(2 : ℤ) ^ nWordBits ≤ m from not_le.2 hm)]
  split_ifs with hs
  · obtain ⟨rfl, rfl⟩ := hs
    have hmh : multiplyHigh x m = x / (2 ^ 0 * y) := by
      rw [multiplyHigh_eq, ← hquot]
      simp
    refine Form.eval_trulyThe ?_ (ediv_nonneg hx.1 (by positivity)) ?_
    · rw [Form.eval_multiplyHigh rfl rfl ((isWord_iff x).2 hx) hmw, hmh]
    · rw [truncate, tdiv_eq_ediv_of_nonneg (hx.1.trans hxm)]
      exact Int.ediv_le_ediv (by positivity) hxm
  · have hmask : ash 1 k - 1 = 2 ^ k - 1 := by rw [ash_ofNat, one_mul]
    have hlow : logandc2 x (ash 1 k - 1) = x / 2 ^ k * 2 ^ k := by rw [hmask, logandc2_mask]
    have hle : x / 2 ^ k * 2 ^ k ≤ x := Int.ediv_mul_le x (by positivity)
    have hlw : IsWord (logandc2 x (ash 1 k - 1)) := by
      rw [hlow, isWord_iff]
      exact ⟨by positivity, by omega⟩
    rw [Form.eval_ash (Form.eval_multiplyHigh (Form.eval_logandc2 rfl rfl) rfl hlw hmw) rfl, hlow,
      multiplyHigh_eq, ← hquot, ← Nat.cast_add, ash_neg, ediv_ediv_of_nonneg (by decide),
      show x / 2 ^ k * 2 ^ k * m = x / 2 ^ k * m * 2 ^ k by ring,
      show (2 : ℤ) ^ 64 * 2 ^ (k + s) = 2 ^ (64 + s) * 2 ^ k by ring,
        mul_ediv_mul_of_pos_left _ _ (by positivity)]

/-! ## The transform -/

theorem logand_pred_ne_zero (hy : 3 ≤ y) (hp : ∀ k : ℕ, y ≠ 2 ^ k) : logand y (y - 1) ≠ 0 := by
  obtain ⟨k, r, hr, rfl⟩ := exists_two_pow_mul_odd (show 0 < y by omega)
  rw [logand_pred_self]
  have hr0 : r ≠ 0 := by
    rintro rfl
    exact hp k (by ring)
  positivity

theorem genUnsignedDivByConstantExpr_spec {maxX : ℤ} (hy : 3 ≤ y) (hy' : IsWord y)
    (hp : ∀ k : ℕ, y ≠ 2 ^ k) (hmax : IsWord maxX) :
    ∃ e, genUnsignedDivByConstantExpr y maxX = some e ∧
      ∀ x, 0 ≤ x → x ≤ maxX → e.eval (Env.ofX x) = some (x / y) := by
  have hyw := (isWord_iff y).1 hy'
  have hmaxw := (isWord_iff maxX).1 hmax
  have hxw {x : ℤ} (hx : 0 ≤ x) (hxm : x ≤ maxX) : IsWord x := (isWord_iff x).2 (by omega)
  set p := integerLength maxX with hpdef
  have hp64 : p ≤ 64 := (integerLength_le_iff hmaxw.1 64).2 hmaxw.2
  have hpx : maxX < 2 ^ p := lt_pow_integerLength hmaxw.1
  have hM := chooseMultiplier_spec hy hyw.2.le hp64
  unfold genUnsignedDivByConstantExpr
  rw [if_pos ⟨hy, hy'.2, hmax, logand_pred_ne_zero hy hp⟩]
  simp only [← hpdef]
  split_ifs with hc
  · -- the multiplier is too long and the divisor even: the dividend is shifted first
    obtain ⟨hlong, heven⟩ := hc
    have hp64' : p = 64 := by
      by_contra hne
      exact absurd (hM.word (by omega)) (not_lt.2 hlong)
    obtain ⟨k, r, hr, rfl⟩ := exists_two_pow_mul_odd (show 0 < y by omega)
    have hld : ld (logand (2 ^ k * (2 * r + 1)) (-(2 ^ k * (2 * r + 1)))) = k := by
      rw [logand_neg_self, ld, integerLength_pow_pred]
    have hr0 : r ≠ 0 := by
      rintro rfl
      exact hp k (by ring)
    have hdiv : 2 ^ k * (2 * r + 1) / ash 1 k = 2 * r + 1 := by
      rw [ash_ofNat, one_mul, mul_ediv_cancel_left _ (by positivity)]
    have hk0 : k ≠ 0 := by
      rintro rfl
      omega
    have hk : k < 64 := by
      have hlt : (2 : ℤ) ^ k < 2 ^ 64 := by
        refine lt_of_le_of_lt (le_mul_of_one_le_right (by positivity) ?_) hyw.2
        omega
      exact (pow_lt_pow_iff_right₀ (by decide)).1 hlt
    have hodd : 2 * r + 1 ≤ 2 ^ k * (2 * r + 1) := by
      refine le_mul_of_one_le_left (by omega) ?_
      exact one_le_pow₀ (by decide)
    have hM' := chooseMultiplier_spec (y :=
      2 * r + 1) (by omega) (by omega) (show 64 - k ≤ 64 by omega)
    simp only [hld, hdiv, hp64', show ((64 : ℕ) : ℤ) - k = ((64 - k : ℕ) : ℤ) by omega]
    refine ⟨_, rfl,
      fun x hx hxm => unsignedDivForm_word hM' (by omega) (hM'.word (by omega)) (hxw hx hxm) ?_ hxm⟩
    rw [Int.ediv_lt_iff_lt_mul (by positivity), ← pow_add, Nat.sub_add_cancel hk.le]
    omega
  · refine ⟨_, rfl, fun x hx hxm => ?_⟩
    rcases lt_or_ge (chooseMultiplier y p).1 (2 ^ 64) with hm | hm
    · have := unsignedDivForm_word (k :=
        0) hM (by omega) hm (hxw hx hxm) (by rw [pow_zero, ediv_one]; omega) hxm
      rwa [pow_zero, one_mul] at this
    · exact unsignedDivForm_high hM (by omega) hm (hxw hx hxm) (by omega)

/-- Quotient and remainder by a constant word, whatever the bound of the dividend. -/
theorem truncate_by_constant_word (y x : ℤ) (high : Option ℤ) (hy : IsWord y) (hy0 : y ≠ 0)
    (hp : ∀ k : ℕ, y ≠ 2 ^ k) (hmax : IsWord (maxX high)) (hx : 0 ≤ x) (hxm : x ≤ maxX high) :
    ∃ e body r, genUnsignedDivByConstantExpr y (maxX high) = some e ∧
      e.eval (Env.ofX x) = some (x / y) ∧
      truncateByConstant y high = some body ∧ body.eval (Env.ofX x) = some (x / y, r) ∧
      r = x - x / y * y ∧ 0 ≤ r ∧ r < y := by
  have hy3 : 3 ≤ y := by
    have h1 := hp 0
    have h2 := hp 1
    have := hy.1
    omega
  obtain ⟨e, hgen, heval⟩ := genUnsignedDivByConstantExpr_spec hy3 hy hp hmax
  have hrem : x - x / y * y = x % y := by rw [emod_def, Int.mul_comm]
  have hr0 : 0 ≤ x % y := emod_nonneg x (by omega)
  have hr1 : x % y < y := emod_lt_of_pos x (by omega)
  have hq : truncate (maxX high) y = maxX high / y := tdiv_eq_ediv_of_nonneg hmax.1
  refine ⟨e, _, x % y, hgen,
    heval x hx hxm, by rw [truncateByConstant, if_neg (logand_pred_ne_zero hy3 hp), hgen]; rfl,
    ?_, hrem.symm, hr0, hr1⟩
  rw [Body.eval_letStar (Form.eval_trulyThe (heval x hx hxm) (ediv_nonneg hx (by omega)) ?_)]
  · rw [Body.eval_letStar (n := x % y)]
    · rfl
    · exact Form.eval_trulyThe (by rw [Form.eval_sub rfl (Form.eval_mul rfl rfl),
        hrem]) hr0 (by omega)
  · rw [hq]
    exact Int.ediv_le_ediv (by omega) hxm

theorem truncate_by_constant_word_seven :
    ∃ e body r, genUnsignedDivByConstantExpr 7 mostPositiveWord = some e ∧
      e.eval (Env.ofX 100) = some 14 ∧
      truncateByConstant 7 none = some body ∧ body.eval (Env.ofX 100) = some (14, r) ∧
      r = 100 - 14 * 7 ∧ 0 ≤ r ∧ r < 7 :=
  truncate_by_constant_word 7 100 none (by decide) (by decide)
    (ne_two_pow 2 (by decide) (by decide)) (by decide) (by decide) (by decide)

end Sbcl.Compiler
