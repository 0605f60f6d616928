import Sbcl.Bignum.LogicCorrect
import Sbcl.Lib.NewtonSqrt
import Sbcl.Numbers.Isqrt

/-!
# The integer square root is exact

* `approximateIsqrt_spec` : the root of 64 bits is near, and it is a word of 32 bits;
* `wordSizedSqrt_spec` : the roots of fixnums and of words;
* `lastBignumPartWord_spec` : the leading 63 or 64 digits of a bignum;
* `isqrtLoop_spec` : every round has near roots of about twice as many digits;
* `isqrt_isRoot` : `isqrt` returns, and what it returns is the root.
-/

namespace Sbcl.Numbers

open SbBignum Rational Limbs NewtonSqrt Option Nat
open Nat (div_lt_of_lt_mul pow_le_pow_right two_pow_pos)

variable {a i l u v : ℕ} {type : ℤ → Bool}

theorem ash_natCast (n k : ℕ) : ash n k = (n * 2 ^ k : ℕ) := by
  rw [ash_ofNat]
  rfl

theorem ash_natCast_neg (n k : ℕ) : ash n (-(k : ℤ)) = (n / 2 ^ k : ℕ) := by
  rw [ash_neg]
  rfl

theorem truncate1_natCast {a b : ℕ} (hb : 0 < b) : truncate1 a b = some ((a / b : ℕ) : ℤ) := by
  have hne : b ≠ 0 := hb.ne'
  simp [truncate1, truncateInteger, hne, Int.tdiv_eq_ediv_of_nonneg]

theorem trulyThe_of {n : ℤ} (h : type n = true) : trulyThe type n = some n := if_pos h

variable {n : ℕ}

theorem wordp_natCast (h : n < 2 ^ 64) : wordp n = true :=
  decide_eq_true ⟨Int.natCast_nonneg n, by exact_mod_cast h⟩

theorem four_pow_le (h : 0 < n) : 4 ^ ((n.size - 1) / 2) ≤ n ∧ n < 4 ^ ((n.size - 1) / 2 + 1) := by
  have hpos : 0 < n.size := size_pos.2 h
  constructor
  · rw [show (4 : ℕ) = 2 ^ 2 from rfl, ← pow_mul]
    exact lt_size.1 (by omega)
  · rw [show (4 : ℕ) = 2 ^ 2 from rfl, ← pow_mul]
    exact size_le.1 (by omega)

theorem getElem?_isqrtTable (hi : i < 192) :
    isqrtTable[i]? = some (min (roundSqrt ((64 + i) * 256 + 128)) 255) := by
  simp [isqrtTable, hi]

theorem isqrtTable_spec : ∀ i < 192, ∃ u ∈ isqrtTable[i]?, 128 ≤ u ∧ u ≤ 255 ∧
    (u - 1) ^ 2 ≤ 256 * (i + 64) ∧ 256 * (i + 65) ≤ (u + 1) ^ 2 := by
  have hcheck : ∀ i < 192, ∀ u ∈ [min (roundSqrt ((64 + i) * 256 + 128)) 255], 128 ≤ u ∧ u ≤ 255 ∧
      (u - 1) ^ 2 ≤ 256 * (i + 64) ∧ 256 * (i + 65) ≤ (u + 1) ^ 2 := by
    decide +kernel
  exact fun i hi => ⟨_, getElem?_isqrtTable hi, hcheck i hi _ (List.mem_singleton_self _)⟩

variable {m : ℕ}

theorem isqrtTable_near (hlow : 2 ^ 62 ≤ m) (hhigh : m < 2 ^ 64) :
    ∃ u, isqrtTable[m / 2 ^ 56 - 64]? = some u ∧ 128 ≤ u ∧ Near u (√m / 2 ^ 24) := by
  obtain ⟨u, hu, h128, -, hle, hlt⟩ := isqrtTable_spec (m / 2 ^ 56 - 64) (by omega)
  refine ⟨u, hu, h128, ?_⟩
  have hi : 256 * (m / 2 ^ 56) * 2 ^ 48 ≤ m ∧ m < 256 * (m / 2 ^ 56 + 1) * 2 ^ 48 := by omega
  have hmul : (u - 1) ^ 2 * 2 ^ 48 ≤ m ∧ m < (u + 1) ^ 2 * 2 ^ 48 := by
    rw [show m / 2 ^ 56 - 64 + 64 = m / 2 ^ 56 by omega] at hle
    rw [show m / 2 ^ 56 - 64 + 65 = m / 2 ^ 56 + 1 by omega] at hlt
    exact ⟨(Nat.mul_le_mul_right _ hle).trans hi.1, hi.2.trans_le (Nat.mul_le_mul_right _ hlt)⟩
  have hdiv : √(m : ℝ) / 2 ^ 24 = √((m : ℝ) / 2 ^ 48) := by
    rw [show (2 : ℝ) ^ 48 = 4 ^ 24 by norm_num, sqrt_div_four_pow]
  rw [hdiv]
  obtain ⟨v, rfl⟩ := Nat.exists_eq_add_of_le' (one_le_of_lt h128)
  refine near_of_sq ?_ ?_
  · rw [le_div_iff₀ (by positivity)]
    exact_mod_cast hmul.1
  · rw [div_lt_iff₀ (by positivity)]
    exact_mod_cast hmul.2

/-! ## Roots of 64 bits -/

/-- The root never needs a bit more: at the greatest words the sixteen bits before are already
exact. -/
theorem second_lt (hhigh : m < 2 ^ 64) (htable : 2 ^ 64 - 2 ^ 32 ≤ m → u = 255)
    (hv : v = u * 2 ^ 7 + m / 2 ^ 41 / u)
    (hv15 : 2 ^ 15 ≤ v) (hvm : m < (v + 1) ^ 2 * 2 ^ 32) (hv16 : v ≤ 2 ^ 16) :
    v * 2 ^ 15 + m / 2 ^ 17 / v < 2 ^ 32 := by
  have hquot : m / 2 ^ 17 / v * (v * 2 ^ 17) ≤ m := by
    rw [Nat.div_div_eq_div_mul, mul_comm v]
    exact div_mul_le_self m _
  by_contra hge
  obtain ⟨k, hk⟩ := Nat.exists_eq_add_of_le hv16
  have hvk : (v : ℤ) = 2 ^ 16 - k := by omega
  have hq : (2 : ℤ) ^ 31 + k * 2 ^ 15 ≤ (m / 2 ^ 17 / v : ℕ) := by omega
  have hbelow : (2 : ℤ) ^ 64 - 2 ^ 32 * k ^ 2 ≤ m := by
    have hmul : ((m / 2 ^ 17 / v : ℕ) : ℤ) * (v * 2 ^ 17) ≤ m := by exact_mod_cast hquot
    have := mul_le_mul_of_nonneg_right hq (show (0 : ℤ) ≤ v * 2 ^ 17 by positivity)
    rw [hvk] at hmul this
    linarith
  have hk1 : k = 0 ∨ k = 1 := by
    by_contra hk2
    have hk2' : (2 : ℤ) ≤ k := by omega
    nlinarith
  rcases hk1 with rfl | rfl
  · omega
  · obtain rfl := htable (by omega)
    omega

theorem near_sixteen (h : Near v (√m / 2 ^ 16)) (hhigh : m < 2 ^ 64) : m < (v + 1) ^ 2 * 2 ^ 32 ∧
    v ≤ 2 ^ 16 := by
  constructor
  · have hlt : √(m : ℝ) < (v + 1) * 2 ^ 16 := (div_lt_iff₀ (by positivity)).1 h.2
    rw [Real.sqrt_lt' (by positivity), mul_pow, ← pow_mul] at hlt
    exact_mod_cast hlt
  have hroot : √(m : ℝ) / 2 ^ 16 < 2 ^ 16 := by
    rw [div_lt_iff₀ (by positivity), Real.sqrt_lt' (by positivity), ← pow_add, ← pow_mul]
    exact_mod_cast hhigh
  have hlt : (v : ℝ) < (2 ^ 16 + 1 : ℕ) := by
    push_cast
    linarith [h.1]
  exact Nat.lt_succ_iff.1 (cast_lt.1 hlt)

theorem approximateIsqrt_eq (hlow : 2 ^ 62 ≤ m) (hu : isqrtTable[m / 2 ^ 56 - 64]? = some u)
    (h0 : 0 < u) (hv0 : 0 < u * 2 ^ 7 + m / 2 ^ 41 / u) :
    approximateIsqrt m =
      some (((u * 2 ^ 7 + m / 2 ^ 41 / u) * 2 ^ 15 + m / 2 ^ 17 /
        (u * 2 ^ 7 + m / 2 ^ 41 / u) : ℕ) : ℤ) := by
  have hindex : ash (m : ℤ) (-56) - 64 = (m / 2 ^ 56 - 64 : ℕ) := by
    rw [show (-56 : ℤ) = -(56 : ℕ) from rfl, ash_natCast_neg]
    omega
  have h41 : ash (m : ℤ) (-41) = (m / 2 ^ 41 : ℕ) := ash_natCast_neg m 41
  have h17 : ash (m : ℤ) (-17) = (m / 2 ^ 17 : ℕ) := ash_natCast_neg m 17
  have h7 : ash (u : ℤ) 7 = (u * 2 ^ 7 : ℕ) := ash_natCast u 7
  have h15 (v : ℕ) : ash (v : ℤ) 15 = (v * 2 ^ 15 : ℕ) := ash_natCast v 15
  have hthe (i : ℕ) : trulyThe (fun i => decide (0 ≤ i)) (i : ℤ) = some ↑i :=
    trulyThe_of (decide_eq_true (Int.natCast_nonneg i))
  simp only [approximateIsqrt, hindex, hthe, Int.toNat_natCast, hu, h41, h17, h7, h15,
    truncate1_natCast h0, truncate1_natCast hv0, ← Nat.cast_add, bind_eq_bind, bind_some]

theorem approximateIsqrt_spec (hlow : 2 ^ 62 ≤ m) (hhigh : m < 2 ^ 64) :
    ∃ a : ℕ, approximateIsqrt m = some (a : ℤ) ∧ Near a (√m) ∧ a < 2 ^ 32 := by
  obtain ⟨u, hu, h128, hnear⟩ := isqrtTable_near hlow hhigh
  have hroot : 4 ^ 31 ≤ m := by norm_num at hlow ⊢; exact hlow
  have hv : Near (u * 2 ^ 7 + m / 2 ^ 41 / u) (√m / 2 ^ 16) :=
    hnear.newton (j := 16) (k := 8) (by norm_num) (by omega)
  have hv15 : 2 ^ 15 ≤ u * 2 ^ 7 + m / 2 ^ 41 / u :=
    hv.le (le_sqrt_div (c := 31) (t := 16) hroot (by norm_num))
  have ha := Near.newton (j := 0) (k :=
    16) (by norm_num) (by simpa only [Nat.zero_add] using hv) (by omega)
  obtain ⟨hvm, hv16⟩ := near_sixteen hv hhigh
  refine ⟨_, approximateIsqrt_eq hlow hu (by omega) (by omega), by simpa using ha, ?_⟩
  refine second_lt hhigh (fun htop => ?_) rfl hv15 hvm hv16
  rw [show m / 2 ^ 56 - 64 = 191 by omega, getElem?_isqrtTable (by decide)] at hu
  rw [← Option.some.inj hu]
  decide +kernel

/-! ## Fixnums and words -/

theorem half_length (h : 0 < n) : truncate ((integerLength n : ℤ) - 1) 2 =
    ((n.size - 1) / 2 : ℕ) := by
  have hpos : 0 < n.size := size_pos.2 h
  rw [integerLength_natCast, truncate, Int.tdiv_eq_ediv_of_nonneg (by omega)]
  omega

theorem corrected (h : Near a (√n)) :
    ∃ r : ℕ, (if (n : ℤ) < (a : ℤ) * a then some ((a : ℤ) - 1) else some (a : ℤ)) = some (r : ℤ) ∧
      IsRoot n r := by
  refine ⟨_, ?_, h.isRoot⟩
  have hiff : (n : ℤ) < (a : ℤ) * a ↔ n < a * a := by exact_mod_cast Iff.rfl
  simp only [hiff]
  by_cases hlt : n < a * a
  · have hpos : 0 < a := Nat.pos_of_ne_zero fun h0 => by simp [h0] at hlt
    rw [if_pos hlt, if_pos hlt, Nat.cast_sub hpos, Nat.cast_one]
  · rw [if_neg hlt, if_neg hlt]

theorem wordSizedSqrt_spec {w : ℕ} (htype : ∀ v : ℕ, v < 4 ^ w → type v = true) (hw : w ≤ 32)
    (h0 : 0 < n) (hn : n < 4 ^ w) : ∃ r : ℕ, wordSizedSqrt type n = some (r : ℤ) ∧ IsRoot n r := by
  obtain ⟨hlow, hhigh⟩ := four_pow_le h0
  have hc := half_length h0
  generalize (n.size - 1) / 2 = c at hlow hhigh hc
  have hcw : c < w := (Nat.pow_lt_pow_iff_right (by norm_num)).1 (hlow.trans_lt hn)
  obtain ⟨t, ht⟩ := Nat.exists_eq_add_of_le (show c ≤ 31 by omega)
  have hshift : 31 - (c : ℤ) = t := by omega
  have hpow : 2 ^ (t * 2) = 4 ^ t := by rw [mul_comm, pow_mul, show 2 ^ 2 = 4 from rfl]
  have hmlow : 2 ^ 62 ≤ n * 2 ^ (t * 2) := by
    calc 2 ^ 62 = 4 ^ 31 := by norm_num
      _ = 4 ^ c * 4 ^ t := by rw [← pow_add, ht]
      _ ≤ n * 2 ^ (t * 2) := by rw [hpow]; exact Nat.mul_le_mul_right _ hlow
  have hmhigh : n * 2 ^ (t * 2) < 2 ^ 64 := by
    calc n * 2 ^ (t * 2) < 4 ^ (c + 1) * 4 ^ t := by rw [hpow]; exact Nat.mul_lt_mul_of_pos_right hhigh (by positivity)
      _ = 4 ^ 32 := by rw [← pow_add, show c + 1 + t = 32 by omega]
      _ = 2 ^ 64 := by norm_num
  obtain ⟨a, ha, hnear, ha32⟩ := approximateIsqrt_spec hmlow hmhigh
  have hsmall : a / 2 ^ t < 2 ^ w := by
    refine div_lt_of_lt_mul (ha32.trans_le ?_)
    rw [← pow_add]
    exact pow_le_pow_right (by norm_num) (by omega)
  have hroot : Near (a / 2 ^ t) (√n) := by
    have hsqrt : √((n * 2 ^ (t * 2) : ℕ) : ℝ) / 2 ^ t = √n := by
      rw [← sqrt_div_four_pow, hpow, Nat.cast_mul, Nat.cast_pow, Nat.cast_ofNat,
        mul_div_cancel_right₀ _ (by positivity)]
    exact hsqrt ▸ hnear.shift (t := t)
  have h1 : type ((a / 2 ^ t : ℕ) : ℤ) = true :=
    htype _ (hsmall.trans_le (Nat.pow_le_pow_left (by norm_num) w))
  have h2 : type (((a / 2 ^ t : ℕ) : ℤ) * (a / 2 ^ t : ℕ)) = true := by
    rw [← Nat.cast_mul]
    refine htype _ ?_
    calc a / 2 ^ t * (a / 2 ^ t) < 2 ^ w * 2 ^ w := Nat.mul_self_lt_mul_self hsmall
      _ = 4 ^ w := by rw [← mul_pow, show 2 * 2 = 4 from rfl]
  obtain ⟨r, hr, hroot⟩ := corrected hroot
  refine ⟨r, ?_, hroot⟩
  have hnm : ash (n : ℤ) ((t : ℤ) * 2) = (n * 2 ^ (t * 2) : ℕ) := by
    exact_mod_cast ash_natCast n (t * 2)
  simp only [wordSizedSqrt, hc, hshift, hnm, trulyThe_of (wordp_natCast hmhigh), ha,
    ash_natCast_neg, trulyThe_of h1, trulyThe_of h2, bind_eq_bind, bind_some, gt_iff_lt]
  exact hr

/-! ## The leading digits of a bignum -/

variable {b : Bignum}

theorem bignumRef_of_le {k : ℕ} (hn : b.toInt = n) (hk : 2 ^ (64 * k) ≤ n) :
    bignumRef b k = some ((n / 2 ^ (64 * k) % 2 ^ 64 : ℕ) : ℤ) := by
  have hval : val b.ref b.length = n := by
    have := val_of_nonneg (b := b) (hn ▸ Int.natCast_nonneg n)
    exact_mod_cast this.trans hn
  have hlt : k < b.length := by
    by_contra hge
    have hpow : 2 ^ (64 * b.length) ≤ 2 ^ (64 * k) := pow_le_pow_right (by norm_num) (by omega)
    exact absurd (val_lt b.ref b.length) (not_lt.2 (hval.symm ▸ hpow.trans hk))
  rw [bignumRef, if_pos hlt, toNat_limb b.ref hlt, hval]

theorem two_words (hi : i ≤ 64) : n / 2 ^ 64 * 2 ^ (64 - i) + n % 2 ^ 64 / 2 ^ i = n / 2 ^ i := by
  have hpow : 2 ^ 64 = 2 ^ i * 2 ^ (64 - i) := by rw [← pow_add, Nat.add_sub_cancel' hi]
  conv_rhs => rw [← div_add_mod n (2 ^ 64)]
  rw [show 2 ^ 64 * (n / 2 ^ 64) = 2 ^ i * (n / 2 ^ 64 * 2 ^ (64 - i)) by rw [hpow]; ring,
    Nat.mul_add_div (two_pow_pos i)]

theorem logior_words {h l i : ℕ} (hl : l < 2 ^ i) :
    logior ((h * 2 ^ i : ℕ) : ℤ) (l : ℤ) = (h * 2 ^ i + l : ℕ) := by
  rw [← Nat.shiftLeft_eq, Nat.shiftLeft_add_eq_or_of_lt hl]
  rfl

theorem lastBignumPartWord_spec {left pos : ℕ} (hn : b.toInt = n) (hleft : left ≤ 63)
    (hlow : 2 ^ (pos + (63 - left)) ≤ n) (hhigh : n < 2 ^ (pos + (64 - left))) :
    lastBignumPartWord left pos b = some ((n / 2 ^ pos : ℕ) : ℤ) := by
  have hleft' : integerp 0 64 (left : ℤ) = true := decide_eq_true ⟨by omega, by omega⟩
  have hword : n / 2 ^ pos < 2 ^ 64 := by
    refine div_lt_of_lt_mul (hhigh.trans_le ?_)
    rw [← pow_add]
    exact pow_le_pow_right (by norm_num) (by omega)
  have hk : (pos : ℤ) / digitSize = (pos / 64 : ℕ) := by push_cast; rfl
  have hi : (pos : ℤ) % digitSize = (pos % 64 : ℕ) := by push_cast; rfl
  have hpos : pos = 64 * (pos / 64) + pos % 64 := (div_add_mod pos 64).symm
  have hi64 : pos % 64 < 64 := Nat.mod_lt pos (by norm_num)
  generalize pos / 64 = k at hk hpos
  generalize pos % 64 = i at hi hpos hi64
  have hdiv : n / 2 ^ (64 * k) / 2 ^ i = n / 2 ^ pos := by
    rw [Nat.div_div_eq_div_mul, ← pow_add, ← hpos]
  have hone : bignumRef b k = some ((n / 2 ^ (64 * k) % 2 ^ 64 : ℕ) : ℤ) :=
    bignumRef_of_le hn ((pow_le_pow_right (by norm_num) (by omega)).trans hlow)
  simp only [lastBignumPartWord, trulyThe_of hleft', if_pos (Int.natCast_nonneg pos), hk, hi,
    Int.toNat_natCast, hone, ash_natCast_neg, bind_eq_bind, bind_some]
  by_cases hcontained : i ≤ left
  · have hsmall : n / 2 ^ (64 * k) < 2 ^ 64 := by
      refine div_lt_of_lt_mul (hhigh.trans_le ?_)
      rw [← pow_add]
      exact pow_le_pow_right (by norm_num) (by omega)
    rw [if_pos (by exact_mod_cast hcontained), mod_eq_of_lt hsmall, hdiv,
      trulyThe_of (wordp_natCast hword)]
  · have hhigh' : n / 2 ^ (64 * (k + 1)) < 2 ^ i := by
      refine div_lt_of_lt_mul (hhigh.trans_le ?_)
      rw [← pow_add]
      exact pow_le_pow_right (by norm_num) (by omega)
    have hpow : 2 ^ i * 2 ^ (64 - i) = 2 ^ 64 := by rw [← pow_add, Nat.add_sub_cancel' hi64.le]
    have hjoin : n / 2 ^ (64 * k) / 2 ^ 64 = n / 2 ^ (64 * (k + 1)) := by
      rw [Nat.div_div_eq_div_mul, ← pow_add, mul_succ]
    have htwo : bignumRef b (k + 1) = some ((n / 2 ^ (64 * k) / 2 ^ 64 : ℕ) : ℤ) := by
      rw [bignumRef_of_le hn ((pow_le_pow_right (by norm_num) (by omega)).trans hlow), mod_eq_of_lt
        (hhigh'.trans_le (pow_le_pow_right (by norm_num) hi64.le)), hjoin]
    have hcount : integerp 0 (digitSize - 1) (digitSize - (i : ℤ)) = true := by
      refine decide_eq_true ⟨?_, ?_⟩ <;> simp only [digitSize] <;> omega
    have hsub : (digitSize : ℤ) - i = (64 - i : ℕ) := by simp only [digitSize]; omega
    have hpart : n / 2 ^ (64 * k) / 2 ^ 64 * 2 ^ (64 - i) < 2 ^ 64 := by
      rw [hjoin, ← hpow]
      exact Nat.mul_lt_mul_of_pos_right hhigh' (two_pow_pos _)
    have hlo : n / 2 ^ (64 * k) % 2 ^ 64 / 2 ^ i < 2 ^ (64 - i) := by
      refine div_lt_of_lt_mul ?_
      rw [hpow]
      exact Nat.mod_lt _ (two_pow_pos 64)
    rw [if_neg (by exact_mod_cast hcontained), trulyThe_of hcount, bind_some, htwo, bind_some,
      hsub, ash_natCast,
      trulyThe_of (wordp_natCast hpart), bind_some, logior_words hlo, two_words hi64.le, hdiv,
        trulyThe_of (wordp_natCast hword)]

/-! ## Bignums -/

variable {c : ℕ}

theorem isqrtLoop_step {d e a : ℕ} (hc : 4 ^ c ≤ n) (hdc : d ≤ c) (hed : e < d)
    (hde : d ≤ 2 * e + 1) (h : Near a (√n / 2 ^ (c - e))) :
    0 < a ∧ Near (a * 2 ^ (d - e - 1) + n / 2 ^ (2 * (c - d) + (d - e) + 1) / a)
      (√n / 2 ^ (c - d)) := by
  have hae : 2 ^ e ≤ a := by
    have := h.le (le_sqrt_div hc (sub_le c e))
    rwa [Nat.sub_sub_self (hed.le.trans hdc)] at this
  refine ⟨(two_pow_pos e).trans_le hae, Near.newton (Nat.sub_pos_of_lt hed) ?_ ?_⟩
  · rwa [show c - d + (d - e) = c - e by omega]
  · calc 2 ^ (d - e) ≤ 2 ^ (e + 1) := pow_le_pow_right (by norm_num) (by omega)
      _ = 2 * 2 ^ e := Nat.pow_succ'
      _ ≤ 2 * a := Nat.mul_le_mul_left 2 hae

theorem isqrtLoop_spec (hc : 4 ^ c ≤ n) (s : ℕ) {e a : ℕ} (he : e = c / 2 ^ s) (h0 : 0 < e)
    (h : Near a (√n / 2 ^ (c - e))) : ∃ a' : ℕ, isqrtLoop n c s e a = some (a' : ℤ) ∧
      Near a' (√n) := by
  induction s generalizing e a with
  | zero =>
    obtain rfl : e = c := by simpa using he
    exact ⟨a, rfl, by simpa using h⟩
  | succ s ih =>
    have hed : e = c / 2 ^ s / 2 := by rw [he, Nat.div_div_eq_div_mul, Nat.pow_succ]
    have hdc : c / 2 ^ s ≤ c := Nat.div_le_self c _
    have hd : ash (c : ℤ) (-(s : ℤ)) = (c / 2 ^ s : ℕ) := ash_natCast_neg c s
    generalize hdef : c / 2 ^ s = d at hed hdc hd
    obtain ⟨ha, hnear⟩ := isqrtLoop_step hc hdc (by omega) (by omega) h
    obtain ⟨a', ha', hroot⟩ := ih hdef.symm (by omega) hnear
    refine ⟨a', ?_, hroot⟩
    have hshift : 2 * (c : ℤ) + 1 - d - e = (2 * (c - d) + (d - e) + 1 : ℕ) := by omega
    have hdigits : (d : ℤ) - 1 - e = (d - e - 1 : ℕ) := by omega
    simp only [isqrtLoop, hd, hshift, hdigits, ash_natCast_neg, ash_natCast,
      truncate1_natCast ha, bind_eq_bind, bind_some, ← Nat.cast_add]
    exact ha'

theorem odd_length (hc : c = (l - 1) / 2) (hl : 0 < l) :
    ∃ left : ℕ, logand (l : ℤ) 1 = left ∧ left ≤ 1 ∧ l = 2 * c + 2 - left := by
  refine ⟨l % 2, ?_, by omega, by omega⟩
  rw [show (1 : ℤ) = 2 ^ 1 - 1 from rfl, logand_mask]
  norm_cast

theorem last_part_near (hlow : 4 ^ c ≤ n) (hhigh : n < 4 ^ (c + 1)) (hc : 31 ≤ c) :
    ∃ a : ℕ, approximateIsqrt ((n / 2 ^ (2 * c - 62) : ℕ) : ℤ) = some (a : ℤ) ∧
      Near a (√n / 2 ^ (c - 31)) := by
  have hpow : 2 ^ (2 * c - 62) = 4 ^ (c - 31) := by rw [show 2 * c - 62 = 2 * (c - 31) by omega,
    pow_mul, show 2 ^ 2 = 4 from rfl]
  have hmlow : 2 ^ 62 ≤ n / 4 ^ (c - 31) := by
    rw [Nat.le_div_iff_mul_le (by positivity)]
    calc 2 ^ 62 * 4 ^ (c - 31) = 4 ^ 31 * 4 ^ (c - 31) := by norm_num
      _ = 4 ^ c := by rw [← pow_add, Nat.add_sub_cancel' hc]
      _ ≤ n := hlow
  have hmhigh : n / 4 ^ (c - 31) < 2 ^ 64 := by
    rw [Nat.div_lt_iff_lt_mul (by positivity)]
    calc n < 4 ^ (c + 1) := hhigh
      _ = 4 ^ 32 * 4 ^ (c - 31) := by rw [← pow_add, show c + 1 = 32 + (c - 31) by omega]
      _ = 2 ^ 64 * 4 ^ (c - 31) := by norm_num
  rw [hpow]
  obtain ⟨a, ha, hnear, -⟩ := approximateIsqrt_spec hmlow hmhigh
  exact ⟨a, ha, hnear.of_high⟩

theorem first_digits (hc : 32 ≤ c) :
    ash (c : ℤ) (5 - (c.size : ℤ)) = (c / 2 ^ (c.size - 5) : ℕ) ∧ 0 < c / 2 ^ (c.size - 5) ∧
    c / 2 ^ (c.size - 5) ≤ 31 := by
  have hb : 5 < c.size := lt_size.2 hc
  refine ⟨?_, ?_, ?_⟩
  · rw [← ash_natCast_neg, Nat.cast_sub hb.le]
    congr 1
    ring
  · exact Nat.div_pos (lt_size.1 (by omega)) (two_pow_pos _)
  · refine Nat.lt_succ_iff.1 (div_lt_of_lt_mul ?_)
    calc c < 2 ^ c.size := lt_size_self c
      _ = 2 ^ (c.size - 5) * 32 := by rw [show 32 = 2 ^ 5 from rfl, ← pow_add,
        Nat.sub_add_cancel hb.le]

theorem bignumIsqrt_spec (hn : b.toInt = n) (h : 2 ^ 64 ≤ n) :
    ∃ r : ℕ, bignumIsqrt b = some (r : ℤ) ∧ IsRoot n r := by
  obtain ⟨hlow, hhigh⟩ := four_pow_le ((two_pow_pos 64).trans_le h)
  have hsize : 64 < n.size := lt_size.2 h
  have hc : ((n.size : ℤ) - 1) / 2 = ((n.size - 1) / 2 : ℕ) := by omega
  obtain ⟨left, hleft, hleft1, hl⟩ := odd_length rfl (show 0 < n.size by omega)
  have hc32 : 32 ≤ (n.size - 1) / 2 := by omega
  generalize (n.size - 1) / 2 = c at *
  have hpos : 2 * (c : ℤ) - 62 = (2 * c - 62 : ℕ) := by omega
  have hpart : lastBignumPartWord left ((2 * c - 62 : ℕ) : ℤ) b =
      some ((n / 2 ^ (2 * c - 62) : ℕ) : ℤ) :=
    lastBignumPartWord_spec hn (by omega) (lt_size.1 (by omega)) (size_le.1 (by omega))
  obtain ⟨a, ha, hnear⟩ := last_part_near hlow hhigh (by omega)
  obtain ⟨hd, hd0, hd31⟩ := first_digits hc32
  obtain ⟨a', ha', hnear'⟩ : ∃ a' : ℕ, isqrtLoop n c (c.size - 5) (c / 2 ^ (c.size - 5) : ℕ)
      (a / 2 ^ (31 - c / 2 ^ (c.size - 5)) : ℕ) = some (a' : ℤ) ∧ Near a' (√n) := by
    refine isqrtLoop_spec hlow (c.size - 5) rfl hd0 ?_
    have hshift := hnear.shift (t := 31 - c / 2 ^ (c.size - 5))
    rwa [div_div, ← pow_add, show c - 31 + (31 - c / 2 ^ (c.size - 5)) =
      c - c / 2 ^ (c.size - 5) by omega] at hshift
  obtain ⟨r, hr, hroot⟩ := corrected hnear'
  refine ⟨r, ?_, hroot⟩
  have hthe : trulyThe (fun i => decide (i ≤ 0)) ((c / 2 ^ (c.size - 5) : ℕ) - 31) =
      some (-((31 - c / 2 ^ (c.size - 5) : ℕ) : ℤ)) := by
    rw [trulyThe_of (decide_eq_true (by omega))]
    congr 1
    omega
  simp only [bignumIsqrt, hn, hc, hleft, hpos, hpart, ha, hd, hthe, integerLength_natCast,
    ash_natCast_neg, ha', bind_eq_bind, bind_some]
  exact hr

/-! ## All integers -/

theorem isqrt_isRoot {x : LispInteger} (hx : x.Represents n) : ∃ r : ℕ, isqrt x = some (r : ℤ) ∧
    IsRoot n r := by
  cases x with
  | fixnum f =>
    have hf : f.val = n := hx
    have hn : (n : ℤ) < 2 ^ nPositiveFixnumBits := hf ▸ f.upper
    rw [isqrt, hf, if_neg (Int.natCast_nonneg n).not_gt]
    rcases Nat.eq_zero_or_pos n with rfl | h0
    · exact ⟨0, rfl, by norm_num, by norm_num⟩
    rw [if_neg (by exact_mod_cast h0.ne')]
    refine wordSizedSqrt_spec (w := 31) (fun v hv => decide_eq_true ?_) (by norm_num) h0 ?_
    · rw [nPositiveFixnumBits]
      omega
    · rw [nPositiveFixnumBits] at hn
      omega
  | bignum b =>
    have hb : b.toInt = n := hx.1
    rw [isqrt, hb, if_neg (Int.natCast_nonneg n).not_gt]
    by_cases hword : n < 2 ^ 64
    · have h0 : 0 < n :=
        Nat.pos_of_ne_zero fun h0 => hx.2.not_fixnum (by rw [hb, h0]; exact ⟨by decide, by decide⟩)
      rw [if_pos (wordp_natCast hword)]
      refine wordSizedSqrt_spec (w := 32) (fun v hv => wordp_natCast ?_) le_rfl h0 ?_
      · omega
      · omega
    · have hnot : ¬ wordp (n : ℤ) = true :=
        fun h => hword (by exact_mod_cast (of_decide_eq_true h).2)
      rw [if_neg hnot]
      exact bignumIsqrt_spec hb (not_lt.1 hword)

theorem approximateIsqrt_none (h : m < 2 ^ 62) : approximateIsqrt m = none := by
  have hindex : ash (m : ℤ) (-56) - 64 = (m / 2 ^ 56 : ℕ) - 64 := by
    rw [show (-56 : ℤ) = -(56 : ℕ) from rfl, ash_natCast_neg]
  rw [approximateIsqrt, hindex, trulyThe, if_neg]
  · rfl
  · rw [decide_eq_true_eq]
    omega

/-- `isqrt` returns the root, on fixnums, words and bignums, with every value in the type that it is
declared of; the approximation is the root of its argument or the number behind it. -/
theorem isqrt_exact {x : LispInteger} {n : ℕ} (hx : x.Represents n) :
    (∃ r : ℕ, isqrt x = some (r : ℤ) ∧ r * r ≤ n ∧ n < (r + 1) * (r + 1)) ∧
      ∀ (m : ℕ) (a : ℤ), m < 2 ^ 64 → approximateIsqrt m = some a → a = Nat.sqrt m ∨
        a = Nat.sqrt m + 1 := by
  refine ⟨isqrt_isRoot hx, fun m a hm ha => ?_⟩
  rcases Nat.lt_or_ge m (2 ^ 62) with hlow | hlow
  · rw [approximateIsqrt_none hlow] at ha
    exact absurd ha (by simp)
  · obtain ⟨a', ha', hnear, -⟩ := approximateIsqrt_spec hlow hm
    obtain rfl : a = a' := Option.some.inj (ha.symm.trans ha')
    exact_mod_cast hnear.eq_or ⟨sqrt_le m, lt_succ_sqrt m⟩

theorem isqrt_exact_two_words :
    (∃ r : ℕ, isqrt (.bignum ⟨2, fun i => if i = 1 then 1 else 0⟩) = some (r : ℤ) ∧
        r * r ≤ 2 ^ 64 ∧ 2 ^ 64 < (r + 1) * (r + 1)) ∧
      ∀ (m : ℕ) (a : ℤ), m < 2 ^ 64 → approximateIsqrt m = some a → a = Nat.sqrt m ∨
        a = Nat.sqrt m + 1 :=
  isqrt_exact (x := .bignum ⟨2, fun i => if i = 1 then 1 else 0⟩)
    SbBignum.two_words_represents

end Sbcl.Numbers
