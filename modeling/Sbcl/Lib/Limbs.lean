import Mathlib.Data.Int.ModEq
import Mathlib.Tactic.Linarith
import Mathlib.Tactic.LinearCombination
import Mathlib.Tactic.Ring

/-!
# Numbers in limbs

* `dotimes` : counted loops, with the rule of their invariants;
* `Buffer`, `val`, `sval` : limbs in memory, and the number that the first of them are, unsigned and
  in two's complement;
* `sval_of_modEq` : a number in range is read back from its limbs when these are right modulo their
  radix;
* `ext` : limbs continued by their sign, which changes `val` by a multiple of the radix and `sval`
  not at all;
* `addWithCarry`, `subtractWithBorrow`, `multiplyAndAdd` : the steps of the digit loops, each with
  its equation.
-/

namespace Limbs

section Loop
variable {σ : Type*}

/-- `n` rounds of a loop body, which is given the number of the round. -/
def dotimes : ℕ → σ → (ℕ → σ → σ) → σ
  | 0, s, _ => s
  | n + 1, s, f => f n (dotimes n s f)

theorem dotimes_induction {n : ℕ} {s : σ} {f : ℕ → σ → σ} (P : ℕ → σ → Prop) (h0 : P 0 s)
    (hstep : ∀ i < n, ∀ s, P i s → P (i + 1) (f i s)) : P n (dotimes n s f) := by
  induction n with
  | zero => exact h0
  | succ n ih => exact hstep n n.lt_succ_self _ (ih fun i hi => hstep i (hi.trans n.lt_succ_self))

theorem dotimes_congr {f f' : ℕ → σ → σ} {n : ℕ} {s : σ} (h : ∀ i < n, ∀ s, f i s = f' i s) :
    dotimes n s f = dotimes n s f' := by
  induction n with
  | zero => rfl
  | succ n ih => rw [dotimes, dotimes, ih fun i hi => h i (hi.trans n.lt_succ_self),
    h n n.lt_succ_self]

end Loop

/-! ## Values -/

variable {w : ℕ}

/-- Limbs in memory, the least significant one first. -/
abbrev Buffer (w : ℕ) := ℕ → BitVec w

/-- The number of the first `n` limbs. -/
def val (f : Buffer w) : ℕ → ℕ
  | 0 => 0
  | n + 1 => val f n + (f n).toNat * 2 ^ (w * n)

@[simp] theorem val_zero (f : Buffer w) : val f 0 = 0 := rfl

theorem val_succ (f : Buffer w) (n : ℕ) : val f (n + 1) = val f n + (f n).toNat * 2 ^ (w * n) := rfl

@[simp] theorem val_one (f : Buffer w) : val f 1 = (f 0).toNat := by simp [val_succ]

theorem radix_succ (w n : ℕ) : 2 ^ (w * (n + 1)) = 2 ^ w * 2 ^ (w * n) := by
  rw [← pow_add]
  congr 1
  ring

theorem radix_add (w m n : ℕ) : 2 ^ (w * (m + n)) = 2 ^ (w * m) * 2 ^ (w * n) := by
  rw [← pow_add, mul_add]

variable {f g : Buffer w}

theorem val_congr {n : ℕ} (h : ∀ i < n, f i = g i) : val f n = val g n := by
  induction n with
  | zero => rfl
  | succ n ih => rw [val_succ, val_succ, ih fun i hi => h i (hi.trans n.lt_succ_self),
    h n n.lt_succ_self]

theorem val_lt (f : Buffer w) (n : ℕ) : val f n < 2 ^ (w * n) := by
  induction n with
  | zero => simp
  | succ n ih =>
    have hle : (f n).toNat + 1 ≤ 2 ^ w := (f n).isLt
    calc val f (n + 1) < 2 ^ (w * n) + (f n).toNat * 2 ^ (w * n) := Nat.add_lt_add_right ih _
      _ = ((f n).toNat + 1) * 2 ^ (w * n) := by ring
      _ ≤ 2 ^ w * 2 ^ (w * n) := Nat.mul_le_mul_right _ hle
      _ = 2 ^ (w * (n + 1)) := (radix_succ w n).symm

theorem val_injective {n : ℕ} (h : val f n = val g n) : ∀ i < n, f i = g i := by
  induction n with
  | zero => exact fun i hi => absurd hi i.not_lt_zero
  | succ n ih =>
    have hlow : val f n = val g n := by
      have := congrArg (· % 2 ^ (w * n)) h
      simpa [val_succ, Nat.mod_eq_of_lt (val_lt _ n)] using this
    have hpos : 0 < 2 ^ (w * n) := by positivity
    rw [val_succ, val_succ, hlow] at h
    intro i hi
    rcases Nat.lt_succ_iff_lt_or_eq.1 hi with hlt | rfl
    · exact ih hlow i hlt
    · exact BitVec.eq_of_toNat_eq (Nat.eq_of_mul_eq_mul_right hpos (Nat.add_left_cancel h))

theorem val_add (f : Buffer w) (n m : ℕ) :
    val f (n + m) = val f n + val (fun i => f (n + i)) m * 2 ^ (w * n) := by
  induction m with
  | zero => simp
  | succ m ih =>
    rw [← add_assoc, val_succ, ih, val_succ, radix_add]
    ring

variable {m : ℕ}

theorem val_of_zeros {n : ℕ} (hnm : n ≤ m) (h : ∀ i, n ≤ i → i < m → f i = 0) :
    val f m = val f n := by
  induction m, hnm using Nat.le_induction with
  | base => rfl
  | succ m hm ih =>
    rw [val_succ, h m hm m.lt_succ_self, ih fun i hi hi' => h i hi (hi'.trans m.lt_succ_self)]
    simp

theorem val_not (f : Buffer w) (n : ℕ) : val (fun i => ~~~f i) n + val f n + 1 = 2 ^ (w * n) := by
  induction n with
  | zero => simp
  | succ n ih =>
    have hd : (~~~f n).toNat + (f n).toNat + 1 = 2 ^ w := by
      rw [BitVec.toNat_not]
      omega
    rw [val_succ, val_succ, radix_succ]
    calc _ = val (fun i => ~~~f i) n + val f n + 1 + ((~~~f n).toNat + (f n).toNat) *
      2 ^ (w * n) := by ring
      _ = ((~~~f n).toNat + (f n).toNat + 1) * 2 ^ (w * n) := by rw [ih]; ring
      _ = 2 ^ w * 2 ^ (w * n) := by rw [hd]

section Update
open Function

variable {f : Buffer w} {n i : ℕ} {v : BitVec w}

theorem val_update_of_le (h : n ≤ i) : val (update f i v) n = val f n :=
  val_congr fun _ hj => update_of_ne (hj.trans_le h).ne v f

@[simp] theorem val_update_self (f : Buffer w) (i : ℕ) (v : BitVec w) :
    val (update f i v) i = val f i :=
  val_update_of_le le_rfl

@[simp] theorem val_update_succ (f : Buffer w) (i : ℕ) (v : BitVec w) :
    val (update f i v) (i + 1) = val f i + v.toNat * 2 ^ (w * i) := by
  rw [val_succ, val_update_self, update_self]

/-- The limbs from `k` on. -/
def window (f : Buffer w) (k : ℕ) : Buffer w := fun i => f (k + i)

theorem window_update (f : Buffer w) (k j : ℕ) (v : BitVec w) :
    window (update f (k + j) v) k = update (window f k) j v := by
  funext i
  unfold window
  by_cases h : i = j
  · rw [h, update_self, update_self]
  · rw [update_of_ne (by omega), update_of_ne h]

end Update

/-! ## Two's complement -/

/-- Is the last of the first `n` limbs negative? -/
def signBit (f : Buffer w) (n : ℕ) : Bool := (f (n - 1)).msb

/-- The number of the first `n` limbs in two's complement. -/
def sval (f : Buffer w) (n : ℕ) : ℤ := val f n - if signBit f n then 2 ^ (w * n) else 0

theorem sval_congr {n : ℕ} (h : ∀ i < n, f i = g i) (hn : 0 < n) : sval f n = sval g n := by
  unfold sval signBit
  rw [val_congr h, h (n - 1) (by omega)]

theorem sval_modEq (f : Buffer w) (n : ℕ) : (val f n : ℤ) ≡ sval f n [ZMOD 2 ^ (w * n)] := by
  unfold sval
  cases signBit f n with
  | false => simp [Int.ModEq.refl]
  | true => simp [Int.modEq_iff_dvd]

theorem signBit_iff (hw : 0 < w) {n : ℕ} (hn : 0 < n) :
    signBit f n = true ↔ 2 ^ (w * n) ≤ 2 * val f n := by
  obtain ⟨n, rfl⟩ := Nat.exists_eq_succ_of_ne_zero hn.ne'
  have hlt : val f n < 2 ^ (w * n) := val_lt f n
  have hd : 2 * 2 ^ (w - 1) = 2 ^ w := by rw [← pow_succ']; congr 1; omega
  rw [signBit, Nat.succ_sub_one, BitVec.msb_eq_decide, decide_eq_true_iff, Nat.succ_eq_add_one,
    val_succ, radix_succ]
  constructor
  · intro h
    have h2 : 2 ^ w * 2 ^ (w * n) ≤ 2 * (f n).toNat * 2 ^ (w * n) :=
      Nat.mul_le_mul_right _ (by omega)
    linarith
  intro h
  by_contra hc
  have h2 : (2 * (f n).toNat + 2) * 2 ^ (w * n) ≤ 2 ^ w * 2 ^ (w * n) :=
    Nat.mul_le_mul_right _ (by omega)
  linarith

theorem sval_range (hw : 0 < w) (f : Buffer w) {n : ℕ} (hn : 0 < n) :
    -2 ^ (w * n) ≤ 2 * sval f n ∧ 2 * sval f n < 2 ^ (w * n) := by
  have hlt : (val f n : ℤ) < 2 ^ (w * n) := by exact_mod_cast val_lt f n
  have hs := signBit_iff hw (f := f) hn
  unfold sval
  cases h : signBit f n with
  | false =>
    have h2 : 2 * (val f n : ℤ) < 2 ^ (w * n) := by
      have := mt hs.2 (by simp [h])
      exact_mod_cast not_le.1 this
    simp
    constructor <;> linarith
  | true =>
    have h2 : (2 : ℤ) ^ (w * n) ≤ 2 * val f n := by exact_mod_cast hs.1 h
    simp
    constructor <;> linarith

/-- A number in the range of `n` limbs is what they are in two's complement when they are right
modulo the radix. -/
theorem sval_of_modEq (hw : 0 < w) {n : ℕ} (hn : 0 < n) {z : ℤ}
    (h : (val f n : ℤ) ≡ z [ZMOD 2 ^ (w * n)]) (hlo : -2 ^ (w * n) ≤ 2 * z)
    (hhi : 2 * z < 2 ^ (w * n)) : sval f n = z := by
  obtain ⟨h1, h2⟩ := sval_range hw f hn
  have hd : (2 : ℤ) ^ (w * n) ∣ sval f n - z := ((sval_modEq f n).symm.trans h).symm.dvd
  obtain ⟨k, hk⟩ := hd
  have hk0 : k = 0 := by
    rcases lt_trichotomy k 0 with hneg | h0 | hpos'
    · nlinarith
    · exact h0
    · nlinarith
  rw [hk0, mul_zero] at hk
  linarith

theorem sval_nonneg_iff (f : Buffer w) (n : ℕ) : 0 ≤ sval f n ↔ signBit f n = false := by
  have hlt : (val f n : ℤ) < 2 ^ (w * n) := by exact_mod_cast val_lt f n
  unfold sval
  cases h : signBit f n with
  | false => simp
  | true =>
    simp
    exact_mod_cast hlt

/-- A limb of copies of a sign. -/
def signLimb (w : ℕ) (s : Bool) : BitVec w := if s then BitVec.allOnes w else 0

/-- The limbs of a buffer of `n`, continued by its sign. -/
def ext (f : Buffer w) (n : ℕ) : Buffer w :=
  fun i => if i < n then f i else signLimb w (signBit f n)

theorem ext_of_lt {n i : ℕ} (h : i < n) : ext f n i = f i := if_pos h

theorem ext_of_le {n i : ℕ} (h : n ≤ i) : ext f n i = signLimb w (signBit f n) := if_neg h.not_gt

theorem val_ext (f : Buffer w) {n : ℕ} (h : n ≤ m) :
    (val (ext f n) m : ℤ) = sval f n + if signBit f n then 2 ^ (w * m) else 0 := by
  induction m, h using Nat.le_induction with
  | base =>
    rw [val_congr fun i hi => ext_of_lt hi, sval]
    ring
  | succ m hm ih =>
    rw [val_succ, ext_of_le hm]
    push_cast
    rw [ih, signLimb]
    cases signBit f n with
    | false => simp
    | true =>
      have hone : 1 ≤ 2 ^ w := Nat.one_le_two_pow
      simp only [if_true, BitVec.toNat_allOnes, Nat.cast_sub hone]
      push_cast
      rw [show (2 : ℤ) ^ (w * (m + 1)) = 2 ^ w * 2 ^ (w * m) by exact_mod_cast radix_succ w m]
      ring

theorem val_ext_modEq (f : Buffer w) {n : ℕ} (h : n ≤ m) :
    (val (ext f n) m : ℤ) ≡ sval f n [ZMOD 2 ^ (w * m)] := by
  rw [val_ext f h]
  cases signBit f n with
  | false => simp [Int.ModEq.refl]
  | true => simp

@[simp] theorem msb_signLimb (hw : 0 < w) (s : Bool) : (signLimb w s).msb = s := by
  cases s with
  | false => simp [signLimb]
  | true =>
    rw [signLimb, if_pos rfl, BitVec.msb_eq_getLsbD_last, BitVec.getLsbD_allOnes]
    simpa using hw

/-! ## How many limbs a number takes -/

/-- Is `z` a number in two's complement of `n` limbs? -/
def Fits (w n : ℕ) (z : ℤ) : Prop := -2 ^ (w * n) ≤ 2 * z ∧ 2 * z < 2 ^ (w * n)

instance (n : ℕ) (z : ℤ) : Decidable (Fits w n z) := inferInstanceAs (Decidable (_ ∧ _))

theorem radix_le {n : ℕ} (h : m ≤ n) : (2 : ℤ) ^ (w * m) ≤ 2 ^ (w * n) := by
  exact_mod_cast Nat.pow_le_pow_right two_pos (Nat.mul_le_mul_left w h)

theorem Fits.mono {n : ℕ} {z : ℤ} (h : Fits w m z) (hmn : m ≤ n) : Fits w n z := by
  have := radix_le (w := w) hmn
  exact ⟨by linarith [h.1], by linarith [h.2]⟩

theorem two_mul_radix_le (hw : 0 < w) (n : ℕ) : 2 * (2 : ℤ) ^ (w * n) ≤ 2 ^ (w * (n + 1)) := by
  have h2 : (2 : ℤ) ≤ 2 ^ w := by exact_mod_cast Nat.le_self_pow hw.ne' 2
  have hpos : (0 : ℤ) ≤ 2 ^ (w * n) := by positivity
  calc 2 * (2 : ℤ) ^ (w * n) ≤ 2 ^ w * 2 ^ (w * n) := mul_le_mul_of_nonneg_right h2 hpos
    _ = 2 ^ (w * (n + 1)) := by exact_mod_cast (radix_succ w n).symm

theorem Fits.neg (hw : 0 < w) {n : ℕ} {z : ℤ} (h : Fits w n z) : Fits w (n + 1) (-z) := by
  have h2 := two_mul_radix_le hw n
  have hpos : (0 : ℤ) < 2 ^ (w * n) := by positivity
  exact ⟨by linarith [h.2], by linarith [h.1]⟩

theorem Fits.add (hw : 0 < w) {n : ℕ} {y z : ℤ} (hy : Fits w n y) (hz : Fits w n z) :
    Fits w (n + 1) (y + z) := by
  have h2 := two_mul_radix_le hw n
  exact ⟨by linarith [hy.1, hz.1], by linarith [hy.2, hz.2]⟩

theorem Fits.sub (hw : 0 < w) {n : ℕ} {y z : ℤ} (hy : Fits w n y) (hz : Fits w n z) :
    Fits w (n + 1) (y - z) := by
  have h2 := two_mul_radix_le hw n
  exact ⟨by linarith [hy.1, hz.2], by linarith [hy.2, hz.1]⟩

theorem fits_sval (hw : 0 < w) (f : Buffer w) {n : ℕ} (hn : 0 < n) : Fits w n (sval f n) :=
  sval_range hw f hn

theorem sval_succ_of_sign (hw : 0 < w) {n : ℕ} (hn : 0 < n) (h : f n = signLimb w (signBit f n)) :
    sval f (n + 1) = sval f n := by
  have hval : val f (n + 1) = val (ext f n) (n + 1) := by
    refine val_congr fun i hi => ?_
    rcases Nat.lt_succ_iff_lt_or_eq.1 hi with hlt | rfl
    · rw [ext_of_lt hlt]
    · rw [ext_of_le le_rfl, h]
  have hfits := (fits_sval hw f hn).mono n.le_succ
  refine sval_of_modEq hw n.succ_pos ?_ hfits.1 hfits.2
  rw [hval]
  exact val_ext_modEq f n.le_succ

theorem sign_of_fits (hw : 0 < w) {n : ℕ} (hn : 0 < n) (h : Fits w n (sval f (n + 1))) :
    f n = signLimb w (signBit f n) := by
  have hdvd : (2 : ℤ) ^ (w * n) ∣ 2 ^ (w * (n + 1)) :=
    pow_dvd_pow 2 (Nat.mul_le_mul_left w n.le_succ)
  have hval : (val f n : ℤ) ≡ val f (n + 1) [ZMOD 2 ^ (w * n)] := by
    rw [val_succ]
    exact (Int.modEq_iff_dvd.2 (by simp))
  have hs : sval f n = sval f (n + 1) :=
    sval_of_modEq hw hn (hval.trans ((sval_modEq f (n + 1)).of_dvd hdvd)) h.1 h.2
  have hext : (val (ext f n) (n + 1) : ℤ) ≡ val f (n + 1) [ZMOD 2 ^ (w * (n + 1))] := by
    have := val_ext_modEq f (Nat.le_succ n)
    rw [hs] at this
    exact this.trans (sval_modEq f (n + 1)).symm
  have heq : val (ext f n) (n + 1) = val f (n + 1) :=
    Nat.ModEq.eq_of_lt_of_lt (Int.natCast_modEq_iff.1 (by exact_mod_cast hext))
      (val_lt _ _) (val_lt _ _)
  rw [val_succ, val_succ, val_congr fun i hi => ext_of_lt hi, ext_of_le le_rfl] at heq
  have hpos : 0 < 2 ^ (w * n) := by positivity
  exact BitVec.eq_of_toNat_eq (Nat.eq_of_mul_eq_mul_right hpos (Nat.add_left_cancel heq)).symm

/-! ## Steps of digit loops -/

/-- The sum of two limbs and a carry, and the carry out of it. -/
def addWithCarry (a b : BitVec w) (carry : Bool) : BitVec w × Bool :=
  (BitVec.ofNat w (a.toNat + b.toNat + carry.toNat),
    decide (2 ^ w ≤ a.toNat + b.toNat + carry.toNat))

/-- The difference of two limbs, where a borrow of one stands for none. -/
def subtractWithBorrow (a b : BitVec w) (borrow : Bool) : BitVec w × Bool :=
  (BitVec.ofNat w (a.toNat + (2 ^ w - 1 - b.toNat) + borrow.toNat),
    decide (2 ^ w ≤ a.toNat + (2 ^ w - 1 - b.toNat) + borrow.toNat))

/-- The high and the low limb of a product with one or two limbs added to it. -/
def multiplyAndAdd (x y prev carry : BitVec w) : BitVec w × BitVec w :=
  (BitVec.ofNat w ((x.toNat * y.toNat + prev.toNat + carry.toNat) / 2 ^ w),
    BitVec.ofNat w (x.toNat * y.toNat + prev.toNat + carry.toNat))

theorem toNat_bool_le (c : Bool) : c.toNat ≤ 1 := Bool.toNat_le c

theorem carry_eq {s : ℕ} (h : s < 2 * 2 ^ w) :
    s % 2 ^ w + (decide (2 ^ w ≤ s)).toNat * 2 ^ w = s := by
  by_cases hs : 2 ^ w ≤ s
  · rw [Nat.mod_eq_sub_mod hs, Nat.mod_eq_of_lt (by omega)]
    simp [hs]
  · rw [Nat.mod_eq_of_lt (not_le.1 hs)]
    simp [hs]

theorem addWithCarry_eq (a b : BitVec w) (c : Bool) :
    (addWithCarry a b c).1.toNat + (addWithCarry a b c).2.toNat * 2 ^ w =
      a.toNat + b.toNat + c.toNat := by
  have hc := toNat_bool_le c
  unfold addWithCarry
  rw [BitVec.toNat_ofNat]
  exact carry_eq (by omega)

theorem subtractWithBorrow_eq (a b : BitVec w) (c : Bool) :
    (subtractWithBorrow a b c).1.toNat + (subtractWithBorrow a b c).2.toNat * 2 ^ w + b.toNat + 1 =
      a.toNat + 2 ^ w + c.toNat := by
  have hc := toNat_bool_le c
  unfold subtractWithBorrow
  rw [BitVec.toNat_ofNat, carry_eq (by omega)]
  omega

theorem multiplyAndAdd_eq (x y p c : BitVec w) :
    (multiplyAndAdd x y p c).2.toNat + (multiplyAndAdd x y p c).1.toNat * 2 ^ w =
      x.toNat * y.toNat + p.toNat + c.toNat := by
  have hlt : x.toNat * y.toNat + p.toNat + c.toNat < 2 ^ w * 2 ^ w := by
    have hx : x.toNat + 1 ≤ 2 ^ w := x.isLt
    have hy : y.toNat + 1 ≤ 2 ^ w := y.isLt
    have hp : p.toNat + 1 ≤ 2 ^ w := p.isLt
    have hc : c.toNat + 1 ≤ 2 ^ w := c.isLt
    nlinarith [Nat.mul_le_mul hx hy]
  unfold multiplyAndAdd
  rw [BitVec.toNat_ofNat, BitVec.toNat_ofNat, Nat.mod_eq_of_lt (Nat.div_lt_of_lt_mul hlt),
    Nat.mul_comm _ (2 ^ w)]
  exact Nat.mod_add_div _ _

/-! ## Digit loops -/

section Loops
open Function

variable {n m : ℕ} {x y : Buffer w}

theorem addLoop {s : Buffer w × Bool} {f : ℕ → Buffer w × Bool → Buffer w × Bool} {K : ℕ}
    (h0 : val s.1 m + s.2.toNat * 2 ^ (w * m) = val x m + val y m + K)
    (hf : ∀ j < n, ∀ t, (∀ i, m + j ≤ i → t.1 i = s.1 i) →
      f j t = (update t.1 (m + j) (addWithCarry (x (m + j)) (y (m + j)) t.2).1,
        (addWithCarry (x (m + j)) (y (m + j)) t.2).2)) :
    val (dotimes n s f).1 (m + n) + (dotimes n s f).2.toNat * 2 ^ (w * (m + n)) =
        val x (m + n) + val y (m + n) + K ∧
      ∀ i, m + n ≤ i → (dotimes n s f).1 i = s.1 i := by
  refine dotimes_induction (P :=
    fun j (t : Buffer w × Bool) => val t.1 (m + j) + t.2.toNat * 2 ^ (w * (m + j)) =
    val x (m + j) + val y (m + j) + K ∧ ∀ i, m + j ≤ i → t.1 i = s.1 i) ⟨h0, fun _ _ => rfl⟩ ?_
  rintro j hj t ⟨hv, hframe⟩
  rw [hf j hj t hframe, ← add_assoc]
  refine ⟨?_, fun i hi => ?_⟩
  · have h := congrArg (· * 2 ^ (w * (m + j))) (addWithCarry_eq (x (m + j)) (y (m + j)) t.2)
    rw [val_update_succ, radix_succ, val_succ, val_succ]
    linarith
  · show update t.1 (m + j) _ i = s.1 i
    rw [update_of_ne (by omega)]
    exact hframe i (by omega)

theorem multiplyLoop {s : Buffer w × BitVec w}
    {f : ℕ → Buffer w × BitVec w → Buffer w × BitVec w} {c : ℕ} (hs : s.2 = 0)
    (hf : ∀ j < n, ∀ t, (∀ i, m + j ≤ i → t.1 i = s.1 i) → ∃ high low : BitVec w,
      f j t = (update t.1 (m + j) low, high) ∧
        low.toNat + high.toNat * 2 ^ w = c * (x j).toNat + (y j).toNat + t.2.toNat) :
    val (dotimes n s f).1 (m + n) + (dotimes n s f).2.toNat * 2 ^ (w * (m + n)) =
        val s.1 m + (c * val x n + val y n) * 2 ^ (w * m) ∧
      ∀ i, m + n ≤ i → (dotimes n s f).1 i = s.1 i := by
  refine dotimes_induction (P := fun j (t : Buffer w × BitVec w) =>
    val t.1 (m + j) + t.2.toNat * 2 ^ (w * (m + j)) =
      val s.1 m + (c * val x j + val y j) * 2 ^ (w * m) ∧
      ∀ i, m + j ≤ i → t.1 i = s.1 i) ⟨by simp [hs], fun _ _ => rfl⟩ ?_
  rintro j hj t ⟨hv, hframe⟩
  obtain ⟨high, low, heq, hstep⟩ := hf j hj t hframe
  rw [heq, ← add_assoc]
  refine ⟨?_, fun i hi => ?_⟩
  · have h := congrArg (· * 2 ^ (w * (m + j))) hstep
    rw [val_update_succ, radix_succ, val_succ, val_succ]
    rw [radix_add] at hv h ⊢
    linear_combination hv + h
  · show update t.1 (m + j) _ i = s.1 i
    rw [update_of_ne (by omega)]
    exact hframe i (by omega)

theorem subtractLoop {s : Buffer w × Bool} {f : ℕ → Buffer w × Bool → Buffer w × Bool}
    (hs : s.2 = true) (hf : ∀ j < n, ∀ t, f j t =
      (update t.1 j (subtractWithBorrow (x j) (y j) t.2).1,
        (subtractWithBorrow (x j) (y j) t.2).2)) :
    val (dotimes n s f).1 n + val y n + (dotimes n s f).2.toNat * 2 ^ (w * n) =
      val x n + 2 ^ (w * n) := by
  refine dotimes_induction (P :=
    fun j (t : Buffer w × Bool) => val t.1 j + val y j + t.2.toNat * 2 ^ (w * j) =
    val x j + 2 ^ (w * j)) (by simp [hs]) fun j hj t ht => ?_
  have h := congrArg (· * 2 ^ (w * j)) (subtractWithBorrow_eq (x j) (y j) t.2)
  rw [hf j hj t, val_update_succ, radix_succ, val_succ, val_succ]
  linarith

end Loops

end Limbs
