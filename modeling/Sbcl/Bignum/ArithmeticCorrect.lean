import Sbcl.Bignum.Arithmetic

/-!
# Bignum arithmetic: correctness

* `Minimal`, `Bignum.Normalized`, `LispInteger.Represents` : bignums without extraneous digits,
  those that are no fixnum either, and the integer that is the one representation of a number;
* `normalizeBignum_spec` : the result of a digit loop is normalized to the number that its digits
  are;
* `negateBignumNotFullyNormalized_spec`, `negateBignumBufferInPlace_val` : negation;
* `bignum_ring_operations` : sums, differences, products and negatives.
-/

namespace Sbcl.SbBignum

open Limbs Function Int

/-- A bignum without extraneous digits. -/
structure Minimal (b : Bignum) : Prop where
  length_pos : 0 < b.length
  minimal : ∀ n, 0 < n → n < b.length → ¬Fits digitSize n b.toInt

def IsFixnum (z : ℤ) : Prop := -2 ^ nPositiveFixnumBits ≤ z ∧ z < 2 ^ nPositiveFixnumBits

/-- A bignum as arithmetic returns it: without extraneous digits, and out of the range of fixnums.
-/
structure Bignum.Normalized (b : Bignum) : Prop extends Minimal b where
  not_fixnum : ¬IsFixnum b.toInt

/-- The integer of the language for `z`. -/
def LispInteger.Represents (r : LispInteger) (z : ℤ) : Prop :=
  match r with
  | fixnum n => n.val = z
  | bignum b => b.toInt = z ∧ b.Normalized

/-- A normalized bignum. -/
structure NormalBignum extends Bignum where
  normalized : toBignum.Normalized

theorem digitSize_pos : 0 < digitSize := by decide

theorem ashr_sign (digit : Digit) : ashr digit (digitSize - 1) = signLimb digitSize digit.msb := by
  have hlo := digit.le_toInt
  have hhi := digit.toInt_lt
  apply BitVec.eq_of_toInt_eq
  rw [ashr, BitVec.toInt_sshiftRight, Int.shiftRight_eq_div_pow, signLimb, BitVec.msb_eq_toInt]
  by_cases h : digit.toInt < 0
  · rw [if_pos (by simpa using h), BitVec.toInt_allOnes]
    simp only [digitSize] at *
    norm_num at *
    omega
  · rw [if_neg (by simpa using h), show (0 : Digit).toInt = 0 from rfl]
    simp only [digitSize] at *
    omega

theorem signDigit_eq (ref : Buffer) (len : ℕ) :
    signDigit ref len = signLimb digitSize (signBit ref len) :=
  ashr_sign _

theorem sval_one (f : Buffer) : sval f 1 = (f 0).toInt := by
  rw [sval, val_one, signBit, BitVec.toInt_eq_msb_cond]
  cases (f (1 - 1)).msb <;> simp

theorem isFixnum_iff (digit : Digit) :
    ashr digit nPositiveFixnumBits = ashr digit (digitSize - 1) ↔ IsFixnum digit.toInt := by
  refine ⟨fixnum_of_ashr, fun h => ?_⟩
  apply BitVec.eq_of_toInt_eq
  obtain ⟨hlo, hhi⟩ := h
  simp only [ashr, BitVec.toInt_sshiftRight, Int.shiftRight_eq_div_pow]
  simp only [nPositiveFixnumBits, digitSize] at *
  omega

/-! ## Normalization -/

variable {f : Buffer} {n : ℕ}

theorem minimal_of_top (hn : 0 < n) (h : f n ≠ signLimb digitSize (signBit f n)) :
    Minimal ⟨n + 1, f⟩ := by
  refine ⟨n.succ_pos, fun k _ hk hfits => h (sign_of_fits digitSize_pos hn ?_)⟩
  exact hfits.mono (Nat.lt_succ_iff.1 hk)

theorem sval_update_sign (hn : 0 < n) (h : f n = ashr (f (n - 1)) (digitSize - 1)) (v : Digit) :
    sval (update f n v) n = sval f (n + 1) := by
  rw [sval_succ_of_sign digitSize_pos hn (h.trans (ashr_sign _))]
  exact sval_congr (fun i hi => update_of_ne hi.ne v f) hn

variable {len : ℕ}

theorem normalizeBignumBuffer_spec (f : Buffer) (h : 0 < len) :
    0 < (normalizeBignumBuffer f len).2 ∧
      sval (normalizeBignumBuffer f len).1 (normalizeBignumBuffer f len).2 = sval f len ∧
      Minimal ⟨(normalizeBignumBuffer f len).2, (normalizeBignumBuffer f len).1⟩ := by
  fun_induction normalizeBignumBuffer f len with
  | case1 f => omega
  | case2 f => exact ⟨one_pos, rfl, one_pos, fun n h0 h1 => by dsimp only at h1; omega⟩
  | case3 f len heq ih =>
    obtain ⟨hpos, hval, hmin⟩ := ih len.succ_pos
    exact ⟨hpos, hval.trans (sval_update_sign len.succ_pos heq 0), hmin⟩
  | case4 f len hne =>
    exact ⟨h, rfl, minimal_of_top len.succ_pos fun heq => hne (heq.trans (ashr_sign _).symm)⟩

variable {b : Bignum}

/-- Only a bignum of one digit can be a fixnum. -/
theorem length_eq_one_of_isFixnum (h : Minimal b) (hz : IsFixnum b.toInt) : b.length = 1 := by
  by_contra hne
  have hpos := h.length_pos
  refine h.minimal 1 one_pos (by omega) ?_
  obtain ⟨hlo, hhi⟩ := hz
  unfold Fits
  simp only [nPositiveFixnumBits, digitSize] at *
  omega

theorem normalizeBignum_spec (f : Buffer) (h : 0 < len) :
    (normalizeBignum f len).Represents (sval f len) := by
  obtain ⟨hpos, hval, hmin⟩ := normalizeBignumBuffer_spec f h
  unfold normalizeBignum
  generalize normalizeBignumBuffer f len = r at hpos hval hmin
  obtain ⟨g, newlen⟩ := r
  dsimp only at *
  split_ifs with h1 h2
  · subst h1
    rw [← hval, sval_one]
    rfl
  · subst h1
    refine ⟨hval, hmin, fun hz => h2 ((isFixnum_iff _).2 ?_)⟩
    rwa [← sval_one]
  · exact ⟨hval, hmin, fun hz => h1 (length_eq_one_of_isFixnum hmin hz)⟩

theorem normalizeBignum_of_modEq {z : ℤ} (h : 0 < len)
    (hmod : (val f len : ℤ) ≡ z [ZMOD 2 ^ (digitSize * len)]) (hfits : Fits digitSize len z) :
    (normalizeBignum f len).Represents z := by
  rw [← sval_of_modEq digitSize_pos h hmod hfits.1 hfits.2]
  exact normalizeBignum_spec f h

theorem bignumDigit_eq (a : Bignum) : bignumDigit a = ext a.ref a.length := by
  funext i
  unfold bignumDigit ext
  rw [signDigit_eq]

theorem ash_neg_digit (n : Fixnum) : ash n.val (1 - digitSize) = if n.val < 0 then -1 else 0 := by
  have hlo := n.lower
  have hhi := n.upper
  rw [show (1 - digitSize : ℤ) = -((63 : ℕ) : ℤ) by norm_num, ash_neg]
  simp only [nPositiveFixnumBits] at hlo hhi
  split_ifs with h <;> norm_num at * <;> omega

theorem toInt_toWord (n : Fixnum) : (n.toWord : Digit).toInt = n.val := by
  have hlo := n.lower
  have hhi := n.upper
  unfold Fixnum.toWord
  simp only [nPositiveFixnumBits, nWordBits, BitVec.toInt_ofInt] at *
  rw [bmod_eq_of_le (by omega) (by omega)]

theorem sval_toWord (n : Fixnum) : sval (fun _ => n.toWord : Buffer) 1 = n.val := by
  rw [sval_one, toInt_toWord]

theorem fixnumSignDigit_eq (n : Fixnum) :
    fixnumSignDigit n = signLimb digitSize (signBit (fun _ => n.toWord : Buffer) 1) := by
  unfold fixnumSignDigit signLimb signBit
  rw [ash_neg_digit, BitVec.msb_eq_toInt, toInt_toWord]
  by_cases h : n.val < 0
  · rw [if_pos h, if_pos (by simpa using h)]
    rfl
  · rw [if_neg h, if_neg (by simpa using h)]
    rfl

theorem fixnumDigit_eq (n : Fixnum) : fixnumDigit n = ext (fun _ => n.toWord) 1 := by
  funext i
  unfold fixnumDigit ext
  rw [fixnumSignDigit_eq]

theorem subtractBignumLoop_val (x y res : Buffer) (n : ℕ) :
    (val (subtractBignumLoop x y res n) n : ℤ) ≡ val x n - val y n [ZMOD 2 ^ (digitSize * n)] := by
  have h := subtractLoop (n := n) (x := x) (y := y) (s := (res, true)) (f := fun i t =>
    (update t.1 i (subtractWithBorrow (x i) (y i) t.2).1,
      (subtractWithBorrow (x i) (y i) t.2).2)) rfl
    fun j _ t => rfl
  set r := dotimes n (res, true) fun i t =>
    (update t.1 i (subtractWithBorrow (x i) (y i) t.2).1,
      (subtractWithBorrow (x i) (y i) t.2).2) with hr
  have hres : subtractBignumLoop x y res n = r.1 := rfl
  have h' : (val r.1 n : ℤ) + val y n + r.2.toNat * 2 ^ (digitSize * n) =
      val x n + 2 ^ (digitSize * n) := by
    exact_mod_cast h
  rw [hres]
  exact modEq_iff_dvd.2 ⟨r.2.toNat - 1, by linear_combination -h'⟩

variable {y : Buffer} {m : ℕ}

theorem subtract_represents {x : Buffer} (res : Buffer) (hm : 0 < m) (hn : 0 < n) (hml : m < len)
    (hnl : n < len) :
    (normalizeBignum (subtractBignumLoop (ext x m) (ext y n) res len) len).Represents
      (sval x m - sval y n) := by
  obtain ⟨k, rfl⟩ := Nat.exists_eq_succ_of_ne_zero (hm.trans hml).ne'
  refine normalizeBignum_of_modEq k.succ_pos ?_ ?_
  · exact (subtractBignumLoop_val _ _ _ _).trans
      ((val_ext_modEq x hml.le).sub (val_ext_modEq y hnl.le))
  · exact ((fits_sval digitSize_pos x hm).mono (Nat.lt_succ_iff.1 hml)).sub digitSize_pos
      ((fits_sval digitSize_pos y hn).mono (Nat.lt_succ_iff.1 hnl))

variable {a : Bignum}

theorem subtractBignum_represents (fresh : ℕ → Buffer) (ha : 0 < a.length) (hb : 0 < b.length) :
    (subtractBignum fresh a b).Represents (a.toInt - b.toInt) := by
  unfold subtractBignum
  rw [bignumDigit_eq, bignumDigit_eq]
  exact subtract_represents _ ha hb (by omega) (by omega)

theorem subtractBignumFixnum_represents (fresh : ℕ → Buffer) (b : Fixnum) (ha : 0 < a.length) :
    (subtractBignumFixnum fresh a b).Represents (a.toInt - b.val) := by
  unfold subtractBignumFixnum
  rw [bignumDigit_eq, fixnumDigit_eq, ← sval_toWord b]
  exact subtract_represents _ ha one_pos (by omega) (by omega)

theorem subtractFixnumBignum_represents (fresh : ℕ → Buffer) (a : Fixnum) (hb : 0 < b.length) :
    (subtractFixnumBignum fresh a b).Represents (a.val - b.toInt) := by
  unfold subtractFixnumBignum
  rw [bignumDigit_eq, fixnumDigit_eq, ← sval_toWord a]
  exact subtract_represents _ one_pos hb (by omega) (by omega)

/-! ## Addition -/

variable {carry : Bool}

theorem val_addWithCarry_modEq {x res : Buffer} {K : ℕ}
    (h : val res n + carry.toNat * 2 ^ (digitSize * n) = val x n + val y n + K) :
    (val (update res n (addWithCarry (x n) (y n) carry).1) (n + 1) : ℤ) ≡
      val x (n + 1) + val y (n + 1) + K [ZMOD 2 ^ (digitSize * (n + 1))] := by
  have heq := addWithCarry_eq (x n) (y n) carry
  rw [val_update_succ, val_succ, val_succ, show (2 : ℤ) ^ (digitSize * (n + 1)) =
    2 ^ digitSize * 2 ^ (digitSize * n) by
    exact_mod_cast radix_succ digitSize n]
  zify at h heq
  push_cast
  exact modEq_iff_dvd.2 ⟨(addWithCarry (x n) (y n) carry).2.toNat, by
    linear_combination -h - 2 ^ (digitSize * n) * heq⟩

theorem add_represents {x res : Buffer} {k : ℕ} (hm : 0 < m) (hn : 0 < n) (hmk : m ≤ k)
    (hnk : n ≤ k)
    (h : val res k + carry.toNat * 2 ^ (digitSize * k) = val (ext x m) k + val (ext y n) k) :
    (normalizeBignum (update res k
      (addWithCarry (signLimb digitSize (signBit x m)) (signLimb digitSize (signBit y n))
      carry).1) (k + 1)).Represents (sval x m + sval y n) := by
  refine normalizeBignum_of_modEq k.succ_pos ?_ ?_
  · rw [← ext_of_le (f := x) hmk, ← ext_of_le (f := y) hnk]
    refine (val_addWithCarry_modEq (K := 0) h).trans ?_
    rw [Nat.cast_zero, add_zero]
    exact (val_ext_modEq x (hmk.trans k.le_succ)).add (val_ext_modEq y (hnk.trans k.le_succ))
  · exact ((fits_sval digitSize_pos x hm).mono hmk).add digitSize_pos
      ((fits_sval digitSize_pos y hn).mono hnk)

theorem addLoops_represents (res : Buffer) (ha : 0 < a.length) (hb : 0 < b.length)
    (hle : b.length ≤ a.length) :
    let s₁ := dotimes b.length (res, false) fun i t =>
      (update t.1 i (addWithCarry (a.ref i) (b.ref i) t.2).1,
        (addWithCarry (a.ref i) (b.ref i) t.2).2)
    let s₂ := dotimes (a.length - b.length) s₁ fun j t =>
      (update t.1 (b.length + j)
        (addWithCarry (a.ref (b.length + j)) (signDigit b.ref b.length) t.2).1,
        (addWithCarry (a.ref (b.length + j)) (signDigit b.ref b.length) t.2).2)
    (normalizeBignum (update s₂.1 a.length
      (addWithCarry (signDigit a.ref a.length) (signDigit b.ref b.length) s₂.2).1)
      (a.length + 1)).Represents
        (a.toInt + b.toInt) := by
  intro s₁ s₂
  rw [signDigit_eq, signDigit_eq]
  have h₁ := (addLoop (n := b.length) (m := 0) (x := ext a.ref a.length) (y :=
    ext b.ref b.length) (K := 0)
    (s := (res, false)) (f := fun i t =>
      (update t.1 i (addWithCarry (a.ref i) (b.ref i) t.2).1,
        (addWithCarry (a.ref i) (b.ref i) t.2).2)) (by simp)
    fun j hj t _ => by rw [zero_add, ext_of_lt (hj.trans_le hle), ext_of_lt hj]).1
  have h₂ := (addLoop (n := a.length - b.length) (m := b.length) (x := ext a.ref a.length) (y :=
    ext b.ref b.length)
    (K := 0) (s := s₁) (f := fun j t =>
      (update t.1 (b.length + j)
        (addWithCarry (a.ref (b.length + j)) (signDigit b.ref b.length) t.2).1,
        (addWithCarry (a.ref (b.length + j)) (signDigit b.ref b.length) t.2).2)) (by simpa using h₁)
    fun j hj t _ => by rw [ext_of_lt (by omega), ext_of_le (by omega), signDigit_eq]).1
  rw [Nat.add_sub_cancel' hle] at h₂
  exact add_represents ha hb le_rfl hle h₂

theorem addBignums_represents (fresh : ℕ → Buffer) (ha : 0 < a.length) (hb : 0 < b.length) :
    (addBignums fresh a b).Represents (a.toInt + b.toInt) := by
  unfold addBignums
  by_cases h : a.length > b.length
  · rw [if_pos h]
    exact addLoops_represents (fresh 0) ha hb h.le
  · rw [if_neg h, add_comm]
    exact addLoops_represents (fresh 0) hb ha (not_lt.1 h)

theorem addBignumFixnum_represents (fresh : ℕ → Buffer) (b : Fixnum) (ha : 0 < a.length) :
    (addBignumFixnum fresh a b).Represents (a.toInt + b.val) := by
  have hd := addWithCarry_eq (a.ref 0) (b.toWord : Digit) false
  have h := (addLoop (n := a.length - 1) (m := 1) (x := ext a.ref a.length) (y :=
    ext (fun _ => b.toWord) 1) (K := 0)
    (s := (update (fresh 0) 0 (addWithCarry (a.ref 0) (b.toWord : Digit) false).1,
      (addWithCarry (a.ref 0) (b.toWord : Digit) false).2))
    (f := fun j t => (update t.1 (1 + j) (addWithCarry (a.ref (1 + j)) (fixnumSignDigit b) t.2).1,
      (addWithCarry (a.ref (1 + j)) (fixnumSignDigit b) t.2).2))
    (by simpa [ext_of_lt ha, ext_of_lt one_pos] using hd)
    fun j hj t _ => by rw [ext_of_lt (by omega), ext_of_le (by omega), fixnumSignDigit_eq]).1
  rw [Nat.add_sub_cancel' ha] at h
  unfold addBignumFixnum
  rw [fixnumSignDigit_eq, signDigit_eq, ← sval_toWord b]
  rw [fixnumSignDigit_eq] at h
  exact add_represents ha one_pos le_rfl ha h

/-! ## Negation -/

theorem neg_modEq {g : Buffer}
    (h : val g n + carry.toNat * 2 ^ (digitSize * n) = val (fun i => lognotDigit (f i)) n + 1) :
    (val g n : ℤ) ≡ -val f n [ZMOD 2 ^ (digitSize * n)] := by
  have hnot : val (fun i => lognotDigit (f i)) n + val f n + 1 = 2 ^ (digitSize * n) := val_not f n
  zify at h hnot
  exact modEq_iff_dvd.2 ⟨carry.toNat - 1, by linear_combination -h - hnot⟩

theorem negateBignumBufferInPlace_val (f : Buffer) (hn : 0 < n) :
    (val (negateBignumBufferInPlace f n) n : ℤ) ≡ -val f n [ZMOD 2 ^ (digitSize * n)] := by
  have hd := addWithCarry_eq (lognotDigit (f 0)) 1 false
  have h := (addLoop (n := n - 1) (m := 1) (x := fun i => lognotDigit (f i)) (y :=
    update 0 0 1) (K := 0)
    (s := (update f 0 (addWithCarry (lognotDigit (f 0)) 1 false).1,
      (addWithCarry (lognotDigit (f 0)) 1 false).2))
    (f := fun j t => (update t.1 (1 + j) (addWithCarry (lognotDigit (t.1 (1 + j))) 0 t.2).1,
      (addWithCarry (lognotDigit (t.1 (1 + j))) 0 t.2).2)) (by simpa using hd) fun j hj t ht => by
        have hj0 : (1 + j) ≠ 0 := by omega
        have ht' : t.1 (1 + j) = f (1 + j) := (ht (1 + j) le_rfl).trans (update_of_ne hj0 _ _)
        rw [ht', update_of_ne hj0]
        rfl).1
  have hone : val (update (0 : Buffer) 0 1) n = 1 := by
    rw [val_of_zeros hn fun i hi _ => update_of_ne (by omega) _ _]
    simp
  rw [Nat.add_sub_cancel' hn, hone] at h
  exact neg_modEq h

theorem bignumNegateLoop_spec (x res : Buffer) (n : ℕ) {r : Buffer} {last1 last2 : Digit}
    (h : bignumNegateLoop x n res = (r, last1, last2)) :
    (val r n : ℤ) ≡ -val x n [ZMOD 2 ^ (digitSize * n)] ∧ (0 < n → last2 = r (n - 1)) ∧
      last1 = if 1 < n then r (n - 2) else 0 := by
  set s := dotimes n (res, true, (0 : Digit), (0 : Digit)) fun i t =>
    (update t.1 i (addWithCarry (lognotDigit (x i)) 0 t.2.1).1,
      (addWithCarry (lognotDigit (x i)) 0 t.2.1).2, t.2.2.2,
      (addWithCarry (lognotDigit (x i)) 0 t.2.1).1) with hs
  cases h
  have h : val s.1 n + s.2.1.toNat * 2 ^ (digitSize * n) = val (fun i => lognotDigit (x i)) n + 1 ∧
      (0 < n → s.2.2.2 = s.1 (n - 1)) ∧ (n = 0 → s.2.2.2 = 0) ∧
        s.2.2.1 = if 1 < n then s.1 (n - 2) else 0 := by
    refine dotimes_induction (P := fun i (t : Buffer × Bool × Digit × Digit) =>
      val t.1 i + t.2.1.toNat * 2 ^ (digitSize * i) = val (fun i => lognotDigit (x i)) i + 1 ∧
        (0 < i → t.2.2.2 = t.1 (i - 1)) ∧ (i = 0 → t.2.2.2 = 0) ∧
        t.2.2.1 = if 1 < i then t.1 (i - 2) else 0)
      ⟨by simp, by simp, by simp, by simp⟩ ?_
    rintro i hi t ⟨hv, hlast, hzero, -⟩
    refine ⟨?_, fun _ => by simp, by simp, ?_⟩
    · have heq := congrArg (· * 2 ^ (digitSize * i)) (addWithCarry_eq (lognotDigit (x i)) 0 t.2.1)
      rw [val_update_succ, radix_succ, val_succ]
      rw [show (0 : Digit).toNat = 0 from rfl] at heq
      linear_combination hv + heq
    · dsimp only
      rcases Nat.eq_zero_or_pos i with h0 | hpos
      · rw [hzero h0, if_neg (by omega)]
      · rw [if_pos (by omega), hlast hpos, update_of_ne (by omega)]
        rfl
  exact ⟨neg_modEq h.1, h.2.1, h.2.2.2⟩

theorem shrink_spec {last1 last2 : Digit} (hn : 0 < n) (h1 : last1 = f (n - 1))
    (h2 : last2 = f n) (hmin : ∀ k, 0 < k → k < n → ¬Fits digitSize k (sval f (n + 1))) :
    let r : Bignum := if last2 = ashr last1 (digitSize - 1) then ⟨n, update f n 0⟩ else ⟨n + 1, f⟩
    Minimal r ∧ r.toInt = sval f (n + 1) := by
  intro r
  subst h1 h2
  by_cases h : f n = ashr (f (n - 1)) (digitSize - 1)
  · have hr : r = ⟨n, update f n 0⟩ := if_pos h
    have hval : r.toInt = sval f (n + 1) := by rw [hr]; exact sval_update_sign hn h 0
    refine ⟨⟨by rw [hr]; exact hn, fun k hk hkn => ?_⟩, hval⟩
    rw [hval]
    exact hmin k hk (by rwa [hr] at hkn)
  · have hr : r = ⟨n + 1, f⟩ := if_neg h
    rw [hr]
    exact ⟨minimal_of_top hn fun heq => h (heq.trans (ashr_sign _).symm), rfl⟩

theorem ofNat_eq_of_modEq {v R z : ℤ} (h : v ≡ z [ZMOD R]) (hv0 : 0 ≤ v) (hv : v < R)
    (hz0 : 0 ≤ z) (hz : z < R) : v = z := by
  have := h
  rwa [Int.ModEq, emod_eq_of_lt hv0 hv, emod_eq_of_lt hz0 hz] at this

theorem toInt_succ (f : Buffer) (n : ℕ) :
    sval f (n + 1) = val f n + (f n).toInt * 2 ^ (digitSize * n) := by
  have hs : (2 : ℤ) ^ (digitSize * (n + 1)) = 2 ^ digitSize * 2 ^ (digitSize * n) := by
    exact_mod_cast radix_succ digitSize n
  rw [sval, signBit, val_succ, Nat.add_sub_cancel, BitVec.toInt_eq_msb_cond, hs]
  cases (f n).msb with
  | false => simp
  | true =>
    simp only [if_true]
    push_cast
    ring

theorem msd_toInt : ((1 : Digit) <<< (digitSize - 1)).toInt = -2 ^ 63 := by decide

/-- The most negative number of `n` digits, and only it, can take one more when it is negated. -/
theorem fits_neg_of_msd (h : f n ≠ (1 : Digit) <<< (digitSize - 1)) :
    Fits digitSize (n + 1) (-sval f (n + 1)) := by
  have hfits : Fits digitSize (n + 1) (sval f (n + 1)) := fits_sval digitSize_pos f n.succ_pos
  have hd : -2 ^ 63 + 1 ≤ (f n).toInt := by
    have hlo := (f n).le_toInt
    have hne : (f n).toInt ≠ -2 ^ 63 :=
      fun heq => h (BitVec.eq_of_toInt_eq (heq.trans msd_toInt.symm))
    norm_num at *
    omega
  have hR : (0 : ℤ) < 2 ^ (digitSize * n) := by positivity
  have hs : (2 : ℤ) ^ (digitSize * (n + 1)) = 2 ^ 64 * 2 ^ (digitSize * n) := by
    exact_mod_cast radix_succ digitSize n
  have hmul := mul_le_mul_of_nonneg_right hd hR.le
  rw [toInt_succ] at hfits ⊢
  unfold Fits at hfits ⊢
  rw [hs] at hfits ⊢
  constructor <;> linarith [hfits.2]

theorem not_fits_neg_of_msd {k : ℕ} (h : f n = (1 : Digit) <<< (digitSize - 1)) (hk : k ≤ n) :
    ¬Fits digitSize k (-sval f (n + 1)) := by
  intro hfits
  have hlt : (val f n : ℤ) < 2 ^ (digitSize * n) := by exact_mod_cast val_lt f n
  have := (hfits.mono hk).2
  rw [toInt_succ, h, msd_toInt] at this
  linarith

theorem negateBignumNotFullyNormalized_spec (fresh : Buffer) {x : Bignum} (hx : Minimal x)
    (h0 : x.toInt ≠ 0) : Minimal (negateBignumNotFullyNormalized fresh x) ∧
      (negateBignumNotFullyNormalized fresh x).toInt = -x.toInt := by
  obtain ⟨len, f⟩ := x
  obtain ⟨n, rfl⟩ := Nat.exists_eq_succ_of_ne_zero hx.length_pos.ne'
  unfold negateBignumNotFullyNormalized
  generalize hr : bignumNegateLoop f n.succ fresh = r
  obtain ⟨r, last1, last2⟩ := r
  obtain ⟨hval, hlast2, hlast1⟩ := bignumNegateLoop_spec f fresh _ hr
  have hmod : (val r (n + 1) : ℤ) ≡ -sval f (n + 1) [ZMOD 2 ^ (digitSize * (n + 1))] :=
    hval.trans (sval_modEq f (n + 1)).neg
  have hfits : Fits digitSize (n + 1) (sval f (n + 1)) := fits_sval digitSize_pos f n.succ_pos
  rw [hlast2 n.succ_pos, Nat.succ_sub_one, Nat.succ_eq_add_one] at *
  by_cases hmsd : f n = (1 : Digit) <<< (digitSize - 1)
  · -- The magnitude may take a digit more, which is a zero.
    have hneg : sval f (n + 1) < 0 := by
      have hlt : (val f n : ℤ) < 2 ^ (digitSize * n) := by exact_mod_cast val_lt f n
      rw [toInt_succ, hmsd, msd_toInt]
      linarith
    have hv : (val r (n + 1) : ℤ) = -sval f (n + 1) :=
      ofNat_eq_of_modEq hmod (natCast_nonneg _) (by exact_mod_cast val_lt r (n + 1)) (by linarith)
        (by linarith [hfits.1])
    have hs : sval (update r (n + 1) 0) (n + 1 + 1) = -sval f (n + 1) := by
      refine sval_of_modEq digitSize_pos n.succ.succ_pos ?_ (hfits.neg digitSize_pos).1
        (hfits.neg digitSize_pos).2
      rw [val_update_succ, ← hv]
      simp [Int.ModEq.refl]
    have hspec := shrink_spec (f := update r (n + 1) 0) n.succ_pos
      (show r n = update r (n + 1) 0 (n + 1 - 1) by rw [Nat.add_sub_cancel,
        update_of_ne (by omega)])
      (show (0 : Digit) = update r (n + 1) 0 (n + 1) by rw [update_self]) fun k hk hkn => by
        rw [hs]
        exact not_fits_neg_of_msd hmsd (Nat.lt_succ_iff.1 hkn)
    rw [hs] at hspec
    simp only [if_pos hmsd, ne_eq, Nat.succ_ne_self, not_false_eq_true, if_true]
    exact hspec
  · have hs : sval r (n + 1) = -sval f (n + 1) :=
      sval_of_modEq digitSize_pos n.succ_pos hmod (fits_neg_of_msd hmsd).1 (fits_neg_of_msd hmsd).2
    simp only [if_neg hmsd, ne_eq, not_true, if_false]
    rcases Nat.eq_zero_or_pos n with rfl | hn
    · -- A single digit that is not zero.
      have hne : r 0 ≠ ashr last1 (digitSize - 1) := by
        intro heq
        rw [hlast1, if_neg (by omega)] at heq
        have hz : (r 0).toInt = 0 := by rw [heq]; rfl
        rw [← sval_one, hs] at hz
        exact h0 (neg_eq_zero.1 hz)
      rw [if_neg hne]
      exact ⟨⟨one_pos, fun k hk hk1 => by dsimp only at hk1; omega⟩, hs⟩
    · rw [if_pos (by omega)] at hlast1
      have hspec := shrink_spec (f := r) hn hlast1 rfl fun k hk hkn hfits => by
        rw [hs] at hfits
        refine hx.minimal (k + 1) k.succ_pos (Nat.succ_lt_succ hkn) ?_
        have := hfits.neg digitSize_pos
        rwa [neg_neg] at this
      rw [hs] at hspec
      exact hspec

theorem negateBignum_represents (fresh : ℕ → Buffer) {x : Bignum} (hx : x.Normalized) :
    (negateBignum fresh x).Represents (-x.toInt) := by
  have h0 : x.toInt ≠ 0 :=
    fun h => hx.not_fixnum (by rw [h]; unfold IsFixnum nPositiveFixnumBits; norm_num)
  have htoInt : (BitVec.ofInt digitSize (mostPositiveFixnum + 1)).toInt =
      2 ^ nPositiveFixnumBits := by decide
  unfold negateBignum
  by_cases h : x.length = 1 ∧ x.ref 0 = BitVec.ofInt digitSize (mostPositiveFixnum + 1)
  · rw [if_pos h]
    show -2 ^ nPositiveFixnumBits = -x.toInt
    rw [Bignum.toInt, h.1, sval_one, h.2, htoInt]
  rw [if_neg h]
  obtain ⟨hmin, hval⟩ := negateBignumNotFullyNormalized_spec (fresh 0) hx.toMinimal h0
  refine ⟨hval, hmin, fun hfix => h ?_⟩
  -- Only the negative of `most-negative-fixnum` is no fixnum, and it takes one digit.
  rw [hval] at hfix
  have hx2 : x.toInt = 2 ^ nPositiveFixnumBits := by
    have := hx.not_fixnum
    unfold IsFixnum at this hfix
    omega
  have hlen : x.length = 1 := by
    by_contra hne
    refine hx.minimal 1 one_pos (by have := hx.length_pos; omega) ?_
    rw [hx2]
    decide
  refine ⟨hlen, BitVec.eq_of_toInt_eq ?_⟩
  rw [htoInt, ← hx2, Bignum.toInt, hlen, sval_one]

/-! ## Multiplication -/

theorem bignumPlusP_iff (b : Bignum) : bignumPlusP b = true ↔ 0 ≤ b.toInt := by
  rw [Bignum.toInt, sval_nonneg_iff]
  unfold bignumPlusP bignum0OrPlusp digit0OrPlusp signBit
  simp

theorem abs_spec (fresh : Buffer) {x : Bignum} (hx : Minimal x) :
    let r := if bignumPlusP x = true then x else negateBignumNotFullyNormalized fresh x
    Minimal r ∧ r.toInt = |x.toInt| := by
  intro r
  by_cases h : bignumPlusP x = true
  · have hr : r = x := if_pos h
    rw [hr, abs_of_nonneg ((bignumPlusP_iff x).1 h)]
    exact ⟨hx, rfl⟩
  have hr : r = negateBignumNotFullyNormalized fresh x := if_neg h
  have hneg : x.toInt < 0 := by
    rw [bignumPlusP_iff] at h
    exact not_le.1 h
  rw [hr, abs_of_neg hneg]
  exact negateBignumNotFullyNormalized_spec fresh hx hneg.ne

theorem val_of_nonneg (h : 0 ≤ b.toInt) : (val b.ref b.length : ℤ) = b.toInt := by
  have hs := (sval_nonneg_iff b.ref b.length).1 h
  rw [Bignum.toInt, sval, hs]
  simp

theorem multiplyFirst_val (x : Digit) (b res : Buffer) (lenB : ℕ) :
    val (multiplyFirst x b lenB res) (lenB + 1) = x.toNat * val b lenB := by
  have h := (multiplyLoop (n := lenB) (m := 0) (x := b) (y := fun _ => 0) (c := x.toNat) (s :=
    (res, (0 : Digit)))
    (f := fun index t => (update t.1 index (multiplyAndAdd (b index) x 0 t.2).2,
      (multiplyAndAdd (b index) x 0 t.2).1))
    rfl fun j _ t _ => ⟨_, _, by rw [zero_add], by rw [multiplyAndAdd_eq, mul_comm]⟩).1
  have hzero : val (fun _ => 0 : Buffer) lenB = 0 := val_of_zeros lenB.zero_le fun _ _ _ => rfl
  rw [hzero] at h
  show val (update _ lenB _) (lenB + 1) = _
  rw [val_update_succ]
  simpa using h

theorem multiplyNext_val (x : Digit) (b res : Buffer) (lenB i : ℕ) :
    val (multiplyNext x b lenB i res) (i + lenB + 1) =
      val res (i + lenB) + x.toNat * val b lenB * 2 ^ (digitSize * i) := by
  have h := (multiplyLoop (n := lenB) (m := i) (x := b) (y := fun j => res (i + j)) (c := x.toNat)
    (s := (res, (0 : Digit)))
    (f := fun j t => (update t.1 (i + j) (multiplyAndAdd x (b j) (t.1 (i + j)) t.2).2,
      (multiplyAndAdd x (b j) (t.1 (i + j)) t.2).1))
    rfl fun j _ t ht => ⟨_, _, rfl, by rw [multiplyAndAdd_eq, ht _ le_rfl]⟩).1
  show val (update _ (i + lenB) _) (i + lenB + 1) = _
  rw [val_update_succ, val_add res i lenB]
  refine h.trans ?_
  ring

theorem multiplyLoops_val (a b res : Buffer) {lenA : ℕ} (lenB : ℕ) (ha : 0 < lenA) :
    val (dotimes (lenA - 1) (multiplyFirst (a 0) b lenB res) fun j res =>
      multiplyNext (a (1 + j)) b lenB (1 + j) res) (lenA + lenB) = val a lenA * val b lenB := by
  have h := dotimes_induction (n := lenA - 1) (s := multiplyFirst (a 0) b lenB res)
    (f := fun j res => multiplyNext (a (1 + j)) b lenB (1 + j) res)
    (P := fun j res => val res (1 + j + lenB) = val a (1 + j) * val b lenB)
    (by rw [add_zero, add_comm, multiplyFirst_val, val_one]) fun j _ t ht => by
      rw [show 1 + (j + 1) + lenB = 1 + j + lenB + 1 by ring, multiplyNext_val, ht,
        show 1 + (j + 1) = 1 + j + 1 by ring, val_succ]
      ring
  rwa [Nat.add_sub_cancel' ha] at h

theorem represents_signed (hn : 0 < n) (negate : Prop) [Decidable negate]
    (hfits : 2 * (val f n : ℤ) < 2 ^ (digitSize * n)) :
    (normalizeBignum (if negate then negateBignumBufferInPlace f n else f) n).Represents
      (if negate then -(val f n : ℤ) else val f n) := by
  split_ifs
  · exact normalizeBignum_of_modEq hn (negateBignumBufferInPlace_val f hn)
      ⟨by linarith, by linarith⟩
  · exact normalizeBignum_of_modEq hn (Int.ModEq.refl _) ⟨by linarith, hfits⟩

theorem signed_mul {a b : ℤ} {p q : Bool} (hp : p = true ↔ 0 ≤ a) (hq : q = true ↔ 0 ≤ b) :
    (if p ≠ q then -(|a| * |b|) else |a| * |b|) = a * b := by
  cases p <;> cases q <;> simp at hp hq
  · rw [if_neg (by simp), abs_of_neg hp, abs_of_neg hq]
    ring
  · rw [if_pos (by simp), abs_of_neg hp, abs_of_nonneg hq]
    ring
  · rw [if_pos (by simp), abs_of_nonneg hp, abs_of_neg hq]
    ring
  · rw [if_neg (by simp), abs_of_nonneg hp, abs_of_nonneg hq]

theorem multiply_fits {x y : ℤ} (hx0 : 0 ≤ x) (hy0 : 0 ≤ y) (hx : Fits digitSize m x)
    (hy : Fits digitSize n y) : 2 * (x * y) < 2 ^ (digitSize * (m + n)) := by
  have hR : (2 : ℤ) ^ (digitSize * (m + n)) = 2 ^ (digitSize * m) * 2 ^ (digitSize * n) := by
    exact_mod_cast radix_add digitSize m n
  rw [hR]
  nlinarith [mul_lt_mul'' hx.2 hy.2 (by linarith) (by linarith), mul_nonneg hx0 hy0]

theorem multiplyBignums_represents (fresh : ℕ → Buffer) (ha : Minimal a) (hb : Minimal b) :
    (multiplyBignums fresh a b).Represents (a.toInt * b.toInt) := by
  obtain ⟨ha', haval⟩ := abs_spec (fresh 0) ha
  obtain ⟨hb', hbval⟩ := abs_spec (fresh 1) hb
  rw [← signed_mul (bignumPlusP_iff a) (bignumPlusP_iff b), ← haval, ← hbval]
  unfold multiplyBignums
  dsimp only
  generalize (if bignumPlusP a = true then a else negateBignumNotFullyNormalized (fresh 0) a) =
    x at *
  generalize (if bignumPlusP b = true then b else negateBignumNotFullyNormalized (fresh 1) b) =
    y at *
  have hx0 : 0 ≤ x.toInt := by rw [haval]; exact abs_nonneg _
  have hy0 : 0 ≤ y.toInt := by rw [hbval]; exact abs_nonneg _
  rw [← val_of_nonneg hx0, ← val_of_nonneg hy0]
  have hfits := multiply_fits hx0 hy0 (fits_sval digitSize_pos x.ref ha'.length_pos)
    (fits_sval digitSize_pos y.ref hb'.length_pos)
  rw [← val_of_nonneg hx0, ← val_of_nonneg hy0] at hfits
  have hlen : 0 < x.length + y.length := Nat.add_pos_left ha'.length_pos _
  by_cases h : x.length > y.length
  · rw [if_pos h]
    have hv := multiplyLoops_val y.ref x.ref (fresh 2) x.length hb'.length_pos
    rw [add_comm, mul_comm] at hv
    rw [← Nat.cast_mul, ← hv] at hfits ⊢
    exact represents_signed hlen _ hfits
  · rw [if_neg h]
    have hv := multiplyLoops_val x.ref y.ref (fresh 2) y.length ha'.length_pos
    rw [← Nat.cast_mul, ← hv] at hfits ⊢
    exact represents_signed hlen _ hfits

theorem toNat_abs_fixnum (n : Fixnum) :
    ((BitVec.ofInt digitSize (if decide (0 ≤ n.val) = true then n.val else -n.val)).toNat : ℤ) =
      |n.val| := by
  have hlo := n.lower
  have hhi := n.upper
  simp only [nPositiveFixnumBits] at hlo hhi
  rw [BitVec.toNat_ofInt, toNat_of_nonneg (emod_nonneg _ (by positivity))]
  by_cases h : 0 ≤ n.val
  · rw [if_pos (by simpa using h), abs_of_nonneg h]
    exact emod_eq_of_lt h (by norm_num at *; omega)
  · rw [if_neg (by simpa using h), abs_of_neg (not_le.1 h)]
    exact emod_eq_of_lt (by omega) (by norm_num at *; omega)

theorem multiplyBignumAndFixnum_represents (fresh : ℕ → Buffer) (ha : Minimal a) (n : Fixnum) :
    (multiplyBignumAndFixnum fresh a n).Represents (a.toInt * n.val) := by
  obtain ⟨ha', haval⟩ := abs_spec (fresh 0) ha
  have hn := toNat_abs_fixnum n
  rw [← signed_mul (bignumPlusP_iff a) (q := decide (0 ≤ n.val)) (by simp), ← haval, ← hn]
  unfold multiplyBignumAndFixnum
  dsimp only
  generalize (if bignumPlusP a = true then a else negateBignumNotFullyNormalized (fresh 0) a) =
    x at *
  generalize BitVec.ofInt digitSize (if decide (0 ≤ n.val) = true then n.val else -n.val) = d at *
  have hx0 : 0 ≤ x.toInt := by rw [haval]; exact abs_nonneg _
  have hd : Fits digitSize 1 (d.toNat : ℤ) := by
    have hlo := n.lower
    have hhi := n.upper
    have habs : |n.val| ≤ 2 ^ nPositiveFixnumBits := abs_le.2 ⟨hlo, hhi.le⟩
    rw [hn]
    unfold Fits
    simp only [nPositiveFixnumBits] at habs
    norm_num at *
    constructor <;> linarith [abs_nonneg n.val]
  have hfits :=
    multiply_fits hx0 (natCast_nonneg d.toNat) (fits_sval digitSize_pos x.ref ha'.length_pos) hd
  have hv := multiplyFirst_val d x.ref (fresh 1) x.length
  rw [mul_comm] at hv
  rw [← val_of_nonneg hx0, ← Nat.cast_mul, ← hv] at hfits ⊢
  exact represents_signed x.length.succ_pos _ hfits

theorem bignum_ring_operations (fresh : ℕ → Buffer) (a b : NormalBignum) (n : Fixnum) :
    (addBignums fresh a.toBignum b.toBignum).Represents (a.toInt + b.toInt) ∧
      (addBignumFixnum fresh a.toBignum n).Represents (a.toInt + n.val) ∧
      (subtractBignum fresh a.toBignum b.toBignum).Represents (a.toInt - b.toInt) ∧
      (subtractBignumFixnum fresh a.toBignum n).Represents (a.toInt - n.val) ∧
      (subtractFixnumBignum fresh n a.toBignum).Represents (n.val - a.toInt) ∧
      (multiplyBignums fresh a.toBignum b.toBignum).Represents (a.toInt * b.toInt) ∧
      (multiplyBignumAndFixnum fresh a.toBignum n).Represents (a.toInt * n.val) ∧
      (negateBignum fresh a.toBignum).Represents (-a.toInt) := by
  have ha := a.normalized.length_pos
  have hb := b.normalized.length_pos
  exact ⟨addBignums_represents fresh ha hb, addBignumFixnum_represents fresh n ha,
    subtractBignum_represents fresh ha hb, subtractBignumFixnum_represents fresh n ha,
    subtractFixnumBignum_represents fresh n ha,
    multiplyBignums_represents fresh a.normalized.toMinimal b.normalized.toMinimal,
    multiplyBignumAndFixnum_represents fresh a.normalized.toMinimal n,
      negateBignum_represents fresh a.normalized⟩

end Sbcl.SbBignum
