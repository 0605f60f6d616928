import Mathlib.Data.Int.Bitwise
import Mathlib.Tactic.Linarith
import Mathlib.Tactic.Positivity
import Mathlib.Tactic.Ring

/-!
# Bits of integers in two's complement

* `eq_of_testBit_eq`, `testBit_ediv`, `testBit_emod`, `testBit_mul`, `testBit_neg_pow` : integers as
  bit functions;
* `bitwise_ediv`, `bitwise_emod` : the operations on high and on low parts;
* `land_add_lor`, `lnot_land` : sums and complements;
* `land_nonneg`, `land_le_left`, `lor_nonneg`, `left_le_lor`, `lxor_nonneg` : signs and bounds;
* `land_ediv_mono`, `lor_ediv_mono` : for operands that each keep their high part and grow in the
  low one, when the result cannot shrink.
-/

namespace IntBits

open Int

variable {L d j lx ly : ℕ} {m n : ℤ}

theorem testBit_negSucc (n i : ℕ) : testBit -[n+1] i = !n.testBit i := rfl

theorem testBit_natCast (n i : ℕ) : testBit (n : ℤ) i = n.testBit i := rfl

theorem eq_of_testBit_eq (h : ∀ i, testBit m i = testBit n i) : m = n := by
  have hmix (k l : ℕ) (h : ∀ i, k.testBit i = !l.testBit i) : False := by
    have hk : k.testBit (max k.size l.size) = false :=
      Nat.testBit_lt_two_pow (Nat.size_le.1 (le_max_left _ _))
    have hl : l.testBit (max k.size l.size) = false :=
      Nat.testBit_lt_two_pow (Nat.size_le.1 (le_max_right _ _))
    simpa [hk, hl] using h (max k.size l.size)
  cases m with
  | ofNat k =>
    cases n with
    | ofNat l => exact congrArg ofNat (Nat.eq_of_testBit_eq h)
    | negSucc l => exact (hmix k l h).elim
  | negSucc k =>
    cases n with
    | ofNat l => exact (hmix l k fun i => (h i).symm).elim
    | negSucc l => exact congrArg negSucc (Nat.eq_of_testBit_eq fun i => Bool.not_inj (h i))

/-! ## Powers of two -/

theorem testBit_ediv (m : ℤ) (j i : ℕ) : testBit (m / 2 ^ j) i = testBit m (i + j) := by
  cases m with
  | ofNat k =>
    rw [show (ofNat k / 2 ^ j : ℤ) = ((k / 2 ^ j : ℕ) : ℤ) by push_cast; rfl]
    exact Nat.testBit_div_two_pow k i
  | negSucc k =>
    rw [show (-[k+1] / 2 ^ j : ℤ) = -[k / 2 ^ j+1] by rw [negSucc_ediv k (by positivity), negSucc_eq]; push_cast; rfl]
    exact congrArg not (Nat.testBit_div_two_pow k i)

theorem testBit_emod (m : ℤ) (j i : ℕ) :
    testBit (m % 2 ^ j) i = (decide (i < j) && testBit m i) := by
  cases m with
  | ofNat k =>
    rw [show (ofNat k % 2 ^ j : ℤ) = ((k % 2 ^ j : ℕ) : ℤ) by push_cast; rfl]
    exact Nat.testBit_mod_two_pow k j i
  | negSucc k =>
    have hlt : k % 2 ^ j < 2 ^ j := Nat.mod_lt _ (by positivity)
    have heq : (-[k+1] % 2 ^ j : ℤ) = ((2 ^ j - (k % 2 ^ j + 1) : ℕ) : ℤ) := by
      rw [negSucc_emod k (by positivity), Nat.cast_sub hlt]
      push_cast
      ring
    rw [heq, testBit_natCast, Nat.testBit_two_pow_sub_succ hlt, testBit_negSucc,
      Nat.testBit_mod_two_pow]
    by_cases h : i < j <;> simp [h]

theorem testBit_mul (m : ℤ) (j i : ℕ) :
    testBit (m * 2 ^ j) i = (decide (j ≤ i) && testBit m (i - j)) := by
  by_cases h : j ≤ i
  · have := testBit_ediv (m * 2 ^ j) j (i - j)
    rw [Int.mul_ediv_cancel _ (by positivity), Nat.sub_add_cancel h] at this
    simp [h, this]
  have := testBit_emod (m * 2 ^ j) j i
  rw [Int.mul_emod_left] at this
  simp only [Nat.not_le.1 h, decide_true, Bool.true_and] at this
  simp only [h, decide_false, Bool.false_and]
  exact this.symm.trans (Nat.zero_testBit i)

theorem testBit_zero (i : ℕ) : testBit 0 i = false := Nat.zero_testBit i

theorem testBit_neg_one (i : ℕ) : testBit (-1) i = true := congrArg not (Nat.zero_testBit i)

theorem testBit_neg_pow (j i : ℕ) : testBit (-(2 ^ j)) i = decide (j ≤ i) := by
  rw [show (-(2 ^ j) : ℤ) = -1 * 2 ^ j by ring, testBit_mul, testBit_neg_one, Bool.and_true]

theorem lnot_eq (a : ℤ) : lnot a = -a - 1 := by
  cases a with
  | ofNat n => rw [show lnot (ofNat n) = -[n+1] from rfl, negSucc_eq, ofNat_eq_natCast]; ring
  | negSucc n => rw [show lnot -[n+1] = (n : ℤ) from rfl, negSucc_eq]; ring

theorem testBit_pow_sub_one (j i : ℕ) : testBit (2 ^ j - 1) i = decide (i < j) := by
  rw [show (2 ^ j - 1 : ℤ) = lnot (-(2 ^ j)) by rw [lnot_eq]; ring, testBit_lnot, testBit_neg_pow]
  by_cases h : i < j
  · simp [h]
  · simp [h, Nat.not_lt.1 h]

theorem land_ediv (a b : ℤ) (j : ℕ) : land a b / 2 ^ j = land (a / 2 ^ j) (b / 2 ^ j) :=
  eq_of_testBit_eq fun i => by simp [testBit_ediv]

theorem lor_ediv (a b : ℤ) (j : ℕ) : lor a b / 2 ^ j = lor (a / 2 ^ j) (b / 2 ^ j) :=
  eq_of_testBit_eq fun i => by simp [testBit_ediv]

theorem lxor_ediv (a b : ℤ) (j : ℕ) : Int.xor a b / 2 ^ j = Int.xor (a / 2 ^ j) (b / 2 ^ j) :=
  eq_of_testBit_eq fun i => by simp [testBit_ediv]

theorem lor_emod (a b : ℤ) (j : ℕ) : lor a b % 2 ^ j = lor (a % 2 ^ j) (b % 2 ^ j) :=
  eq_of_testBit_eq fun i => by simp [testBit_emod, Bool.and_or_distrib_left]

theorem land_comm (a b : ℤ) : land a b = land b a :=
  eq_of_testBit_eq fun i => by simp [Bool.and_comm]

theorem lor_comm (a b : ℤ) : lor a b = lor b a := eq_of_testBit_eq fun i => by simp [Bool.or_comm]

theorem lxor_comm (a b : ℤ) : Int.xor a b = Int.xor b a :=
  eq_of_testBit_eq fun i => by simp [Bool.xor_comm]

/-! ## Sums, signs and bounds -/

theorem and_add_ldiff (m n : ℕ) : (m &&& n) + Nat.ldiff m n = m := by
  induction m using Nat.binaryRec generalizing n with
  | zero => simp [show Nat.ldiff 0 n = 0 from Nat.eq_of_testBit_eq
    fun i => by simp [Nat.testBit_ldiff]]
  | bit a m ih =>
    have hm := ih n.div2
    rw [← Nat.bit_bodd_div2 n, Nat.land_bit, Nat.ldiff_bit]
    simp only [Nat.bit_val]
    cases a <;> cases n.bodd <;> simp <;> omega

theorem and_add_or (m n : ℕ) : (m &&& n) + (m ||| n) = m + n := by
  induction m using Nat.binaryRec generalizing n with
  | zero => simp
  | bit a m ih =>
    have hm := ih n.div2
    rw [← Nat.bit_bodd_div2 n, Nat.land_bit, Nat.lor_bit]
    simp only [Nat.bit_val]
    cases a <;> cases n.bodd <;> simp <;> omega

theorem land_add_lor (a b : ℤ) : land a b + lor a b = a + b := by
  cases a with
  | ofNat m =>
    cases b with
    | ofNat n => exact congrArg ofNat (and_add_or m n)
    | negSucc n =>
      have h1 := and_add_ldiff m n
      have h2 := and_add_ldiff n m
      rw [Nat.and_comm] at h2
      simp only [land, lor, ofNat_eq_natCast, negSucc_eq]
      omega
  | negSucc m =>
    cases b with
    | ofNat n =>
      have h1 := and_add_ldiff m n
      have h2 := and_add_ldiff n m
      rw [Nat.and_comm] at h2
      simp only [land, lor, ofNat_eq_natCast, negSucc_eq]
      omega
    | negSucc n =>
      have h1 := and_add_or m n
      simp only [land, lor, negSucc_eq]
      omega

theorem natCast_not_neg (n : ℕ) : ¬(n : ℤ) < 0 := by omega

theorem land_neg_iff (a b : ℤ) : land a b < 0 ↔ a < 0 ∧ b < 0 := by
  cases a <;> cases b <;> simp [land, negSucc_lt_zero, natCast_not_neg]

theorem lor_neg_iff (a b : ℤ) : lor a b < 0 ↔ a < 0 ∨ b < 0 := by
  cases a <;> cases b <;> simp [lor, negSucc_lt_zero, natCast_not_neg]

theorem lxor_neg_iff (a b : ℤ) : Int.xor a b < 0 ↔ (a < 0 ↔ 0 ≤ b) := by
  cases a <;> cases b <;> simp [Int.xor, negSucc_lt_zero, natCast_not_neg]

theorem land_le_left {a b : ℤ} (h : 0 ≤ a ∨ b < 0) : land a b ≤ a := by
  cases a with
  | ofNat m =>
    cases b with
    | ofNat n => exact ofNat_le.2 Nat.and_le_left
    | negSucc n => exact ofNat_le.2 (by have := and_add_ldiff m n; omega)
  | negSucc m =>
    cases b with
    | ofNat n => exact absurd h (by simp [negSucc_not_nonneg])
    | negSucc n =>
      have : m ≤ m ||| n := Nat.left_le_or
      simp only [land, negSucc_eq]
      omega

theorem land_le_right {a b : ℤ} (h : 0 ≤ b ∨ a < 0) : land a b ≤ b := by
  rw [land_comm]
  exact land_le_left h

theorem left_le_lor {a b : ℤ} (h : 0 ≤ b ∨ a < 0) : a ≤ lor a b := by
  have := land_add_lor a b
  have := land_le_right h
  omega

theorem right_le_lor {a b : ℤ} (h : 0 ≤ a ∨ b < 0) : b ≤ lor a b := by
  rw [lor_comm]
  exact left_le_lor h

/-! ## A number of low bits -/

/-- `k` bits and a sign. -/
def Fits (k : ℕ) (n : ℤ) : Prop := -(2 ^ k) ≤ n ∧ n < 2 ^ k

theorem fits_iff (k : ℕ) (n : ℤ) : Fits k n ↔ n / 2 ^ k = 0 ∨ n / 2 ^ k = -1 := by
  have h : (0 : ℤ) < 2 ^ k := by positivity
  have hn := Int.mul_ediv_add_emod n (2 ^ k)
  unfold Fits
  constructor
  · rintro ⟨hlo, hhi⟩
    have h3 : n / 2 ^ k < 1 := (Int.ediv_lt_iff_lt_mul h).2 (by omega)
    have h4 : -1 ≤ n / 2 ^ k := (Int.le_ediv_iff_mul_le h).2 (by omega)
    omega
  · rintro (hq | hq) <;> rw [hq] at hn <;> omega

variable {k : ℕ} {a b : ℤ}

theorem Fits.mono {l : ℕ} (h : Fits k a) (hkl : k ≤ l) : Fits l a := by
  have : (2 : ℤ) ^ k ≤ 2 ^ l := pow_le_pow_right₀ (by decide) hkl
  unfold Fits at h ⊢
  omega

theorem zero_land (b : ℤ) : land 0 b = 0 := eq_of_testBit_eq fun i => by simp [testBit_zero]

theorem neg_one_land (b : ℤ) : land (-1) b = b :=
  eq_of_testBit_eq fun i => by simp [testBit_neg_one]

theorem zero_lor (b : ℤ) : lor 0 b = b := eq_of_testBit_eq fun i => by simp [testBit_zero]

theorem neg_one_lor (b : ℤ) : lor (-1) b = -1 := eq_of_testBit_eq fun i => by simp [testBit_neg_one]

theorem zero_lxor (b : ℤ) : Int.xor 0 b = b := eq_of_testBit_eq fun i => by simp [testBit_zero]

theorem neg_one_lxor (b : ℤ) : Int.xor (-1) b = -b - 1 := by
  rw [← lnot_eq]
  exact eq_of_testBit_eq fun i => by simp [testBit_neg_one]

theorem Fits.land (ha : Fits k a) (hb : Fits k b) : Fits k (land a b) := by
  rw [fits_iff] at ha hb ⊢
  rw [land_ediv]
  rcases ha with ha | ha <;> rw [ha]
  · exact Or.inl (zero_land _)
  · rwa [neg_one_land]

theorem Fits.lor (ha : Fits k a) (hb : Fits k b) : Fits k (lor a b) := by
  rw [fits_iff] at ha hb ⊢
  rw [lor_ediv]
  rcases ha with ha | ha <;> rw [ha]
  · rwa [zero_lor]
  · exact Or.inr (neg_one_lor _)

theorem Fits.lxor (ha : Fits k a) (hb : Fits k b) : Fits k (Int.xor a b) := by
  rw [fits_iff] at ha hb ⊢
  rw [lxor_ediv]
  rcases ha with ha | ha <;> rw [ha]
  · rwa [zero_lxor]
  · rw [neg_one_lxor]
    omega

/-! ## Growth below an unchanged high part -/

theorem le_of_testBit (hn : 0 ≤ n) (h : ∀ i, testBit m i = true → testBit n i = true) : m ≤ n := by
  have heq : Int.lor m n = n := eq_of_testBit_eq fun i => by
    rw [testBit_lor]
    cases hm : testBit m i <;> simp_all
  calc m ≤ Int.lor m n := left_le_lor (Or.inl hn)
    _ = n := heq

theorem ediv_agree {a x : ℤ} (h : a / 2 ^ L = x / 2 ^ L) :
    a / 2 ^ j / 2 ^ (L - j) = x / 2 ^ j / 2 ^ (L - j) := by
  have h2 (n : ℕ) : (0 : ℤ) ≤ 2 ^ n := by positivity
  rcases Nat.le_total j L with hj | hj
  · rw [Int.ediv_ediv_of_nonneg (h2 j), Int.ediv_ediv_of_nonneg (h2 j), ← pow_add,
      Nat.add_sub_cancel' hj, h]
  · rw [Nat.sub_eq_zero_of_le hj, pow_zero, Int.ediv_one, Int.ediv_one,
      ← Nat.add_sub_cancel' hj, pow_add,
      ← Int.ediv_ediv_of_nonneg (h2 L), ← Int.ediv_ediv_of_nonneg (h2 L), h]

theorem land_ediv_mono {a x c y : ℤ} (hax : a ≤ x) (hcy : c ≤ y) (hx : a / 2 ^ L = x / 2 ^ L)
    (hy : c / 2 ^ L = y / 2 ^ L)
    (hone : ∀ i, j ≤ i → i < L → (testBit a i || testBit c i) = true) :
    land a c / 2 ^ j ≤ land x y / 2 ^ j := by
  have hj : (0 : ℤ) < 2 ^ j := by positivity
  have hAX := Int.ediv_le_ediv hj hax
  have hCY := Int.ediv_le_ediv hj hcy
  have hhigh : lor (x / 2 ^ j) (y / 2 ^ j) / 2 ^ (L - j) =
      lor (a / 2 ^ j) (c / 2 ^ j) / 2 ^ (L - j) := by
    rw [lor_ediv, lor_ediv, ediv_agree hx, ediv_agree hy]
  have hlow : lor (a / 2 ^ j) (c / 2 ^ j) % 2 ^ (L - j) = 2 ^ (L - j) - 1 := by
    refine eq_of_testBit_eq fun i => ?_
    rw [testBit_emod, testBit_pow_sub_one, testBit_lor, testBit_ediv, testBit_ediv]
    by_cases hi : i < L - j
    · simpa [hi] using hone (i + j) (by omega) (by omega)
    · simp [hi]
  have hlor : lor (x / 2 ^ j) (y / 2 ^ j) ≤ lor (a / 2 ^ j) (c / 2 ^ j) := by
    rw [← Int.mul_ediv_add_emod (lor (x / 2 ^ j) _) (2 ^ (L - j)),
      ← Int.mul_ediv_add_emod (lor (a / 2 ^ j) _) (2 ^ (L - j)), hhigh, hlow]
    omega
  have h1 := land_add_lor (a / 2 ^ j) (c / 2 ^ j)
  have h2 := land_add_lor (x / 2 ^ j) (y / 2 ^ j)
  rw [land_ediv, land_ediv]
  omega

theorem ediv_agree_mono {a x : ℤ} {L M : ℕ} (h : a / 2 ^ L = x / 2 ^ L) (hl : L ≤ M) :
    a / 2 ^ M = x / 2 ^ M := by
  have := ediv_agree (j := M) h
  rwa [Nat.sub_eq_zero_of_le hl, pow_zero, Int.ediv_one, Int.ediv_one] at this

theorem emod_le_emod (h : m ≤ n) (hd : m / 2 ^ d = n / 2 ^ d) : m % 2 ^ d ≤ n % 2 ^ d := by
  have hm := Int.mul_ediv_add_emod m (2 ^ d)
  have hn := Int.mul_ediv_add_emod n (2 ^ d)
  rw [hd] at hm
  omega

theorem le_of_emod_le (h : m % 2 ^ d ≤ n % 2 ^ d) (hd : m / 2 ^ d = n / 2 ^ d) : m ≤ n := by
  have hm := Int.mul_ediv_add_emod m (2 ^ d)
  have hn := Int.mul_ediv_add_emod n (2 ^ d)
  rw [hd] at hm
  omega

theorem lor_ediv_mono_aux {a x c y : ℤ} (hax : a ≤ x) (hcy : c ≤ y) (hl : lx ≤ ly)
    (hx : a / 2 ^ lx = x / 2 ^ lx) (hy : c / 2 ^ ly = y / 2 ^ ly)
    (hca : ∀ i, j ≤ i → i < lx → testBit c i = true → testBit a i = true)
    (hac : ∀ i, j ≤ i → i < ly → testBit a i = true → testBit c i = true) :
    lor a c / 2 ^ j < lor x y / 2 ^ j ∨ a / 2 ^ j = x / 2 ^ j ∧ c / 2 ^ j = y / 2 ^ j := by
  have hj : (0 : ℤ) < 2 ^ j := by positivity
  have hAX := Int.ediv_le_ediv hj hax
  have hCY := Int.ediv_le_ediv hj hcy
  have hxd := ediv_agree (j := j) (ediv_agree_mono hx hl)
  have hyd := ediv_agree (j := j) hy
  have hxe := ediv_agree (j := j) hx
  rw [lor_ediv, lor_ediv]
  have hca' (i : ℕ) (hi : i < lx - j) : testBit (c / 2 ^ j) i = true →
      testBit (a / 2 ^ j) i = true := by
    rw [testBit_ediv, testBit_ediv]
    exact hca (i + j) (by omega) (by omega)
  have hac' (i : ℕ) (hi : i < ly - j) : testBit (a / 2 ^ j) i = true →
      testBit (c / 2 ^ j) i = true := by
    rw [testBit_ediv, testBit_ediv]
    exact hac (i + j) (by omega) (by omega)
  have hd : lx - j ≤ ly - j := by omega
  generalize a / 2 ^ j = A at *
  generalize c / 2 ^ j = C at *
  generalize x / 2 ^ j = X at *
  generalize y / 2 ^ j = Y at *
  generalize ly - j = d at *
  generalize lx - j = e at *
  have hhigh : lor A C / 2 ^ d = lor X Y / 2 ^ d := by rw [lor_ediv, lor_ediv, hxd, hyd]
  have hlow : lor A C % 2 ^ d = C % 2 ^ d := by
    refine eq_of_testBit_eq fun i => ?_
    rw [testBit_emod, testBit_emod, testBit_lor]
    by_cases hi : i < d
    · have := hac' i hi
      cases hA : testBit A i <;> simp_all
    · simp [hi]
  have hCYd : C % 2 ^ d ≤ Y % 2 ^ d := emod_le_emod hCY hyd
  have hYd : Y % 2 ^ d ≤ lor X Y % 2 ^ d := by
    rw [lor_emod]
    exact right_le_lor (Or.inl (Int.emod_nonneg _ (by positivity)))
  by_cases heq : lor X Y % 2 ^ d = C % 2 ^ d
  · right
    have hbits (i : ℕ) (hi : i < d) (hX : testBit X i = true) : testBit C i = true := by
      have := congrArg (fun n => testBit n i) heq
      simpa [testBit_emod, hi, hX] using this.symm
    have hXA : X ≤ A := by
      refine le_of_emod_le (le_of_testBit (Int.emod_nonneg _ (by positivity))
        fun i hX => ?_) hxe.symm
      rw [testBit_emod] at hX ⊢
      obtain ⟨hi, hX⟩ := (Bool.and_eq_true _ _).mp hX
      have hi' : i < e := of_decide_eq_true hi
      rw [hi, hca' i hi' (hbits i (by omega) hX)]
      rfl
    have hYC : Y ≤ C := le_of_emod_le (by omega) hyd.symm
    exact ⟨le_antisymm hAX hXA, le_antisymm hCY hYC⟩
  · left
    by_contra hn
    have := emod_le_emod (not_lt.1 hn) hhigh.symm
    omega

/-- Where the operands have the same ones, each of them looking below its own unchanged high part,
their union grows unless neither operand does. -/
theorem lor_ediv_mono {a x c y : ℤ} (hax : a ≤ x) (hcy : c ≤ y)
    (hx : a / 2 ^ lx = x / 2 ^ lx) (hy : c / 2 ^ ly = y / 2 ^ ly)
    (hca : ∀ i, j ≤ i → i < lx → testBit c i = true → testBit a i = true)
    (hac : ∀ i, j ≤ i → i < ly → testBit a i = true → testBit c i = true) :
    lor a c / 2 ^ j < lor x y / 2 ^ j ∨ a / 2 ^ j = x / 2 ^ j ∧ c / 2 ^ j = y / 2 ^ j := by
  rcases Nat.le_total lx ly with hl | hl
  · exact lor_ediv_mono_aux hax hcy hl hx hy hca hac
  · rw [lor_comm a, lor_comm x]
    exact (lor_ediv_mono_aux hcy hax hl hy hx hac hca).imp_right And.symm

end IntBits
