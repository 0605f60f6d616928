import Mathlib.Data.BitVec
import Mathlib.Tactic.LinearCombination
import Sbcl.Integer
import Sbcl.Object

/-!
# Modular quotients of digits (code/bignum.lisp)

* `bmod` : the quotient modulo the base of the digits, bit by bit;
* `reducedRatioMod` : a half-extended division, down to half a digit;
* `Euclid` : the two remainders and their cofactors are a basis of all the pairs with the quotient;
* `reducedRatioMod_iff` : where the bounds of the comment are kept.
-/

namespace Sbcl.Ratio

open Option Nat
open BitVec (eq_of_toNat_eq toNat_inj toNat_mul toNat_or)

def digitSize : ℕ := 64

def mostPositiveFixnum : ℤ := 2 ^ 62 - 1

def lowerOnesDigit : ℤ := 2 ^ (digitSize / 2) - 1

/-- The variables of `bmod`. -/
structure BmodState where
  ud : Word
  vd : Word
  umask : Word
  imask : Word
  m : Word

/-- One turn of its loop. -/
def bmodStep (st : BmodState) : BmodState :=
  let umask := st.umask ||| st.imask
  let subtract := st.ud &&& umask ≠ 0
  { ud := if subtract then st.ud - st.vd else st.ud
    vd := st.vd <<< 1
    umask
    imask := st.imask <<< 1
    m := if subtract then st.m ||| st.imask else st.m }

/-- `bmod`, of the lowest digits -/
def bmod (u v : Word) : Word := (bmodStep^[digitSize] ⟨u, v, 0, 1, 0⟩).m

/-- The loop over the shifts, which are one less than the counter. -/
def subtractLoop (n2 d2 : Word) : ℕ → Word → Word → Option (Word × Word)
  | 0, n1, d1 => if n1 ≥ n2 then none else some (n1, d1)
  | i + 1, n1, d1 =>
    if n1 ≥ n2 then
      if n1 ≥ n2 <<< i then subtractLoop n2 d2 i (n1 - n2 <<< i) (d1 - d2 <<< i)
        else subtractLoop n2 d2 i n1 d1
    else some (n1, d1)

/-- The outer loop, up to a number of turns. -/
def reduceLoop : ℕ → Word → Word → Word → Word → Option (Word × Word)
  | 0, _, _, _, _ => none
  | fuel + 1, n1, d1, n2, d2 =>
    if n2.toNat > 2 ^ (digitSize / 2) then do
      let (r, d) ← subtractLoop n2 d2 (n1.toNat.size + 1 - n2.toNat.size) n1 d1
      reduceLoop fuel n2 d2 r d
    else some (n2, d2)

/-- `reduced-ratio-mod`, of the lowest digits -/
def reducedRatioMod (fuel : ℕ) (x y : Word) : Option (ℕ × ℤ) := do
  let c := bmod x y
  let (n2, d2) ← reduceLoop fuel c 1 (~~~c + 1) (-1)
  some (n2.toNat,
    if d2.toNat ≥ 2 ^ (digitSize - 1) then lognot (logand mostPositiveFixnum (lognot d2.toNat))
    else logand lowerOnesDigit d2.toNat)

/-! ## The quotient -/

open BitVec (twoPow)

theorem exists_two_mul {a : Word} (h : a.toNat % 2 = 0) : ∃ b, a = 2 * b := by
  refine ⟨BitVec.ofNat 64 (a.toNat / 2), eq_of_toNat_eq ?_⟩
  rw [toNat_mul, BitVec.toNat_ofNat, Nat.mod_eq_of_lt (show a.toNat / 2 < 2 ^ 64 by omega)]
  change a.toNat = 2 * (a.toNat / 2) % 2 ^ 64
  omega

theorem twoPow_succ (i : ℕ) : twoPow 64 (i + 1) = twoPow 64 i * 2 :=
  (BitVec.twoPow_mul_twoPow_eq i 1).symm

/-- After `i` turns the low bits of the rest are zero. -/
structure BmodInv (u v : Word) (i : ℕ) (st : BmodState) : Prop where
  eq : st.m * v + st.ud = u
  low : ∃ a, st.ud = twoPow 64 i * a
  vd_eq : st.vd = twoPow 64 i * v
  umask_eq : st.umask.toNat = 2 ^ i - 1
  imask_eq : st.imask = twoPow 64 i
  m_lt : st.m.toNat < 2 ^ i

theorem bmodStep_inv {u v : Word} (hv : v.toNat % 2 = 1) {i : ℕ} (hi : i < 64) {st : BmodState}
    (h : BmodInv u v i st) : BmodInv u v (i + 1) (bmodStep st) := by
  obtain ⟨a, ha⟩ := h.low
  have hpow : (twoPow 64 i).toNat = 2 ^ i := BitVec.toNat_twoPow_of_lt hi
  have hpos := Nat.two_pow_pos i
  have humask : (st.umask ||| st.imask).toNat = 2 ^ (i + 1) - 1 := by
    rw [toNat_or, h.umask_eq, h.imask_eq, hpow, or_two_pow_eq_add_of_lt (by omega)]
    omega
  have htest : (st.ud &&& (st.umask ||| st.imask)).toNat = 2 ^ i * (a.toNat % 2) := by
    rw [BitVec.toNat_and, humask, Nat.and_two_pow_sub_one_eq_mod, ha, toNat_mul, hpow,
      Nat.mod_mod_of_dvd _ (pow_dvd_pow 2 hi), Nat.pow_succ, Nat.mul_mod_mul_left]
  have hor : (st.m ||| st.imask).toNat = st.m.toNat + 2 ^ i := by
    rw [toNat_or, h.imask_eq, hpow, or_two_pow_eq_add_of_lt h.m_lt]
  have hm : st.m ||| st.imask = st.m + twoPow 64 i := by
    apply eq_of_toNat_eq
    rw [hor, BitVec.toNat_add, hpow, ← hor, Nat.mod_eq_of_lt (BitVec.isLt _)]
  have hdouble : ∀ b : Word, b <<< 1 = 2 * b := fun b => (BitVec.twoPow_mul_eq_shiftLeft b 1).symm
  have hvd : st.vd <<< 1 = twoPow 64 (i + 1) * v := by rw [hdouble, h.vd_eq, twoPow_succ]; ring
  have himask : st.imask <<< 1 = twoPow 64 (i + 1) := by rw [hdouble, h.imask_eq, twoPow_succ]; ring
  have heq := h.eq
  by_cases htest' : a.toNat % 2 = 0
  · obtain ⟨b, rfl⟩ := exists_two_mul htest'
    have hzero : ¬st.ud &&& (st.umask ||| st.imask) ≠ 0 := by
      rw [not_not, ← toNat_inj, htest, htest', Nat.mul_zero]
      rfl
    have := h.m_lt
    exact ⟨by simpa only [bmodStep, if_neg hzero] using heq,
      ⟨b, by simp only [bmodStep, if_neg hzero]; rw [ha, twoPow_succ]; ring⟩, hvd, humask, himask,
      by simp only [bmodStep, if_neg hzero]; omega⟩
  · have hone : st.ud &&& (st.umask ||| st.imask) ≠ 0 := by
      rw [ne_eq, ← toNat_inj, htest, show a.toNat % 2 = 1 by omega, Nat.mul_one]
      exact hpos.ne'
    obtain ⟨b, hb⟩ : ∃ b, a - v = 2 * b := by
      apply exists_two_mul
      rw [BitVec.toNat_sub]
      omega
    have := h.m_lt
    refine ⟨?_, ⟨b, ?_⟩, hvd, humask, himask, by simp only [bmodStep, if_pos hone, hor]; omega⟩
    · simp only [bmodStep, if_pos hone, hm, h.vd_eq]
      linear_combination heq
    · simp only [bmodStep, if_pos hone]
      rw [ha, h.vd_eq, twoPow_succ]
      linear_combination twoPow 64 i * hb

theorem bmod_mul (u : Word) {v : Word} (hv : v.toNat % 2 = 1) : bmod u v * v = u := by
  have hrun : ∀ i ≤ 64, BmodInv u v i (bmodStep^[i] ⟨u, v, 0, 1, 0⟩) := by
    intro i hi
    induction i with
    | zero =>
      have hone : twoPow 64 0 = 1 := BitVec.twoPow_zero
      refine ⟨?_, ⟨u, ?_⟩, ?_, rfl, hone.symm, Nat.one_pos⟩
        <;> simp only [Function.iterate_zero_apply, hone, one_mul, zero_mul, zero_add]
    | succ i ih =>
      rw [Function.iterate_succ_apply']
      exact bmodStep_inv hv hi (ih (by omega))
  have h := hrun 64 (le_refl 64)
  obtain ⟨a, ha⟩ := h.low
  have hzero : twoPow 64 64 = 0 := eq_of_toNat_eq (BitVec.toNat_twoPow_of_le (le_refl 64))
  have heq := h.eq
  rw [ha, hzero, zero_mul, add_zero] at heq
  exact heq

/-! ## The division -/

/-- The remainders with their cofactors: each pair of numbers with the quotient is a combination of
the two. -/
structure Euclid (x y : Word) (s : ℤ) (n1 n2 e1 e2 : ℕ) : Prop where
  sign : s = 1 ∨ s = -1
  pos : 0 < e1 ∧ 0 < e2
  det : n1 * e2 + n2 * e1 = 2 ^ 64
  left : (n1 : Word) * y = (s * e1 : ℤ) * x
  right : (n2 : Word) * y = (-(s * e2) : ℤ) * x
  span : ∀ n d : ℤ, (n : Word) * y = d * x → ∃ a b : ℤ, n = a * n1 + b * n2 ∧
    d = a * (s * e1) - b * (s * e2)

variable {x y : Word} {s : ℤ} {n1 n2 e1 e2 : ℕ}

theorem Euclid.step (h : Euclid x y s n1 n2 e1 e2) {q r : ℕ} (hr : n1 = q * n2 + r) :
    Euclid x y (-s) n2 r e2 (e1 + q * e2) := by
  have hleft := h.left
  have hright := h.right
  push_cast at hleft hright
  refine ⟨by rcases h.sign with rfl | rfl <;> simp, ⟨h.pos.2, Nat.add_pos_left h.pos.1 _⟩, ?_,
    ?_, ?_, ?_⟩
  · rw [← h.det, hr]
    ring
  · push_cast
    linear_combination hright
  · have hcast : (r : Word) = n1 - q * n2 := by rw [hr]; push_cast; ring
    rw [hcast]
    push_cast
    linear_combination hleft - q * hright
  · intro n d hnd
    obtain ⟨a, b, rfl, rfl⟩ := h.span n d hnd
    refine ⟨a * q + b, a, ?_, ?_⟩
    · rw [hr]
      push_cast
      ring
    · push_cast
      ring

theorem subtractLoop_spec {n2 : Word} (d2 : Word) (i : ℕ) : ∀ n1 d1 : Word,
    n1.toNat < n2.toNat * 2 ^ i → n2.toNat * 2 ^ i < 2 ^ 65 →
    ∃ (q : ℕ) (r : Word), subtractLoop n2 d2 i n1 d1 = some (r, d1 - q * d2) ∧
      n1.toNat = q * n2.toNat + r.toNat ∧ r.toNat < n2.toNat := by
  induction i with
  | zero =>
    intro n1 d1 hlt _
    rw [Nat.pow_zero, Nat.mul_one] at hlt
    exact ⟨0, n1, by rw [subtractLoop, if_neg (show ¬n1 ≥ n2 from not_le.2 hlt)]; simp, by omega,
      hlt⟩
  | succ i ih =>
    intro n1 d1 hlt hword
    rw [Nat.pow_succ, ← Nat.mul_assoc] at hlt hword
    rw [subtractLoop]
    split
    case isFalse hge => exact ⟨0, n1, by simp, by omega, not_le.1 hge⟩
    case isTrue hge =>
    have hshift : (n2 <<< i).toNat = n2.toNat * 2 ^ i := by
      rw [BitVec.toNat_shiftLeft, Nat.shiftLeft_eq, Nat.mod_eq_of_lt (by omega)]
    split
    case isFalse hfits =>
      have hless : n1.toNat < n2.toNat * 2 ^ i := hshift ▸ not_le.1 hfits
      exact ih n1 d1 hless (by omega)
    case isTrue hfits =>
      have hle : n2.toNat * 2 ^ i ≤ n1.toNat := hshift ▸ hfits
      have hsub : (n1 - n2 <<< i).toNat = n1.toNat - n2.toNat * 2 ^ i := by
        rw [BitVec.toNat_sub_of_le hfits, hshift]
      obtain ⟨q, r, hrun, hq, hr⟩ := ih (n1 - n2 <<< i) (d1 - d2 <<< i) (by omega) (by omega)
      refine ⟨q + 2 ^ i, r, ?_, by rw [Nat.add_mul, Nat.mul_comm (2 ^ i)]; omega, hr⟩
      have hpow : d2 <<< i = ((2 ^ i : ℕ) : Word) * d2 := by
        rw [← BitVec.twoPow_mul_eq_shiftLeft]
        congr 1
        exact eq_of_toNat_eq (BitVec.toNat_twoPow 64 i)
      rw [hrun, hpow]
      push_cast
      congr 2
      ring

/-! ## The bounds -/

theorem intCast_eq_zero_iff (z : ℤ) : (z : Word) = 0 ↔ 2 ^ 64 ∣ z := by
  rw [← toNat_inj, BitVec.toNat_intCast]
  change (z % 2 ^ 64).toNat = 0 ↔ _
  omega

theorem dvd_of_mul_eq_zero {z : ℤ} (hx : x.toNat % 2 = 1) (h : (z : Word) * x = 0) :
    2 ^ 64 ∣ z := by
  rw [← intCast_eq_zero_iff]
  linear_combination bmod 1 x * h - z * bmod_mul 1 hx

theorem Euclid.bounds (hx : x.toNat % 2 = 1) (h : Euclid x y s n1 n2 e1 e2) (hn1 : 2 ^ 32 < n1)
    (hn2 : n2 ≤ 2 ^ 32) : 0 < n2 ∧ n2 < 2 ^ 32 ∧ e2 < 2 ^ 32 := by
  have hdet := h.det
  obtain ⟨hpos1, hpos2⟩ := h.pos
  have he2 : e2 < 2 ^ 32 := by
    by_contra hge
    have := Nat.mul_le_mul hn1 (not_lt.1 hge)
    omega
  have hne : ¬(n2 = 0 ∨ n2 = 2 ^ 32) := by
    intro hn2
    obtain ⟨p, hp⟩ : ∃ p : ℤ, p = 2 ^ 32 := ⟨_, rfl⟩
    have hzero : ((p * n2 : ℤ) : Word) = 0 := by
      rw [intCast_eq_zero_iff, hp]
      rcases hn2 with rfl | rfl <;> norm_num
    have hright := h.right
    rw [Int.cast_mul, Int.cast_natCast] at hzero
    rw [Int.cast_neg] at hright
    have hdvd : 2 ^ 64 ∣ p * (s * e2) := by
      apply dvd_of_mul_eq_zero hx
      rw [Int.cast_mul]
      linear_combination p * hright - y * hzero
    rw [hp] at hdvd
    rcases h.sign with rfl | rfl <;> omega
  omega

/-- The quotient is that of the two numbers, up to the sign. -/
def Close (x y : Word) (d n : ℕ) : Prop := (n : Word) * y = d * x ∨ (n : Word) * y = -d * x

theorem Euclid.least (h : Euclid x y s n1 n2 e1 e2) (hn1 : 2 ^ 32 < n1) {d n : ℕ} (hd : 0 < d)
    (hn : n ≤ 2 ^ 32) (hclose : Close x y d n) : e2 ≤ d := by
  obtain ⟨δ, hδ, hnd⟩ : ∃ δ : ℤ, (δ = d ∨ δ = -d) ∧ ((n : ℤ) : Word) * y = δ * x := by
    rcases hclose with hclose | hclose
    · exact ⟨d, .inl rfl, by push_cast; exact hclose⟩
    · exact ⟨-d, .inr rfl, by push_cast; exact hclose⟩
  obtain ⟨a, b, hna, hδa⟩ := h.span n δ hnd
  obtain ⟨hpos1, hpos2⟩ := h.pos
  have hd' : (d : ℤ) = a * e1 - b * e2 ∨ (d : ℤ) = b * e2 - a * e1 := by
    rcases h.sign with rfl | rfl <;> rcases hδ with rfl | rfl
    · left; linear_combination hδa
    · right; linear_combination -hδa
    · right; linear_combination hδa
    · left; linear_combination -hδa
  zify at hn1 hn hpos1 hpos2 hd ⊢
  -- the coefficients have opposite signs, so the cofactors do not cancel
  rcases lt_trichotomy a 0 with ha | rfl | ha
  · have hb : 0 < b := by
      by_contra hb
      nlinarith
    rcases hd' with hd' | hd' <;> nlinarith
  · rcases lt_trichotomy b 0 with hb | rfl | hb
    · rcases hd' with hd' | hd' <;> nlinarith
    · omega
    · rcases hd' with hd' | hd' <;> nlinarith
  · have hb : b < 0 := by
      by_contra hb
      nlinarith
    rcases hd' with hd' | hd' <;> nlinarith

theorem Close.unique (hy : y.toNat % 2 = 1) {d n n' : ℕ} (h : Close x y d n) (h' : Close x y d n')
    (hn : n ≤ 2 ^ 32) (hn' : n' ≤ 2 ^ 32) : n = n' := by
  have hsub : (((n - n' : ℤ)) : Word) = n - n' := by push_cast; rfl
  have hadd : (((n + n' : ℤ)) : Word) = n + n' := by push_cast; rfl
  have hdvd : (2 ^ 64 : ℤ) ∣ n - n' ∨ (2 ^ 64 : ℤ) ∣ n + n' := by
    rcases h with h | h <;> rcases h' with h' | h'
    · exact .inl (dvd_of_mul_eq_zero hy (by rw [hsub]; linear_combination h - h'))
    · exact .inr (dvd_of_mul_eq_zero hy (by rw [hadd]; linear_combination h + h'))
    · exact .inr (dvd_of_mul_eq_zero hy (by rw [hadd]; linear_combination h + h'))
    · exact .inl (dvd_of_mul_eq_zero hy (by rw [hsub]; linear_combination h - h'))
  omega

/-! ## The whole -/

theorem shifts_bound (n1 : Word) {n2 : Word} (hn2 : 0 < n2.toNat) :
    n1.toNat < n2.toNat * 2 ^ (n1.toNat.size + 1 - n2.toNat.size) ∧
      n2.toNat * 2 ^ (n1.toNat.size + 1 - n2.toNat.size) < 2 ^ 65 := by
  have hlow : 2 ^ (n2.toNat.size - 1) ≤ n2.toNat := lt_size.1 (sub_lt (size_pos.2 hn2) Nat.one_pos)
  have hhigh := lt_size_self n2.toNat
  have hn1 := lt_size_self n1.toNat
  have hsize : n1.toNat.size ≤ 64 := size_le.2 n1.isLt
  have hsize2 := size_pos.2 hn2
  rcases Nat.lt_or_ge n1.toNat.size n2.toNat.size with hlt | hge
  · rw [Nat.sub_eq_zero_of_le hlt, Nat.pow_zero, Nat.mul_one]
    exact ⟨hn1.trans_le ((Nat.pow_le_pow_right (by decide) (by omega)).trans hlow),
      n2.isLt.trans (by decide)⟩
  · constructor
    · calc n1.toNat < 2 ^ n1.toNat.size := hn1
        _ = 2 ^ (n2.toNat.size - 1) * 2 ^ (n1.toNat.size + 1 - n2.toNat.size) := by
          rw [← Nat.pow_add]
          congr 1
          omega
        _ ≤ _ := Nat.mul_le_mul_right _ hlow
    · calc n2.toNat * 2 ^ (n1.toNat.size + 1 - n2.toNat.size)
          < 2 ^ n2.toNat.size * 2 ^ (n1.toNat.size + 1 - n2.toNat.size) :=
            Nat.mul_lt_mul_of_pos_right hhigh (Nat.two_pow_pos _)
        _ = 2 ^ (n1.toNat.size + 1) := by rw [← Nat.pow_add]; congr 1; omega
        _ ≤ 2 ^ 65 := Nat.pow_le_pow_right (by decide) (by omega)

theorem reduceLoop_spec (fuel : ℕ) : ∀ (s : ℤ) (e1 e2 : ℕ) (n1 n2 d1 d2 : Word),
    Euclid x y s n1.toNat n2.toNat e1 e2 → d1 = (s * e1 : ℤ) → d2 = (-(s * e2) : ℤ) →
    n2.toNat < fuel → (n2.toNat ≤ 2 ^ 32 → 2 ^ 32 < n1.toNat) →
    ∃ (s : ℤ) (m f e : ℕ) (n : Word),
      reduceLoop fuel n1 d1 n2 d2 = some (n, ((-(s * e) : ℤ) : Word)) ∧
      Euclid x y s m n.toNat f e ∧ 2 ^ 32 < m ∧ n.toNat ≤ 2 ^ 32 := by
  induction fuel with
  | zero => exact fun s e1 e2 n1 n2 d1 d2 _ _ _ hfuel => absurd hfuel (Nat.not_lt_zero _)
  | succ fuel ih =>
    intro s e1 e2 n1 n2 d1 d2 h hd1 hd2 hfuel hlarge
    rw [reduceLoop, digitSize]
    split
    case isFalse hle => exact ⟨s, n1.toNat, e1, e2, n2, by rw [hd2], h,
      hlarge (not_lt.1 hle), not_lt.1 hle⟩
    case isTrue hgt =>
      obtain ⟨hlow, hhigh⟩ := shifts_bound n1 (show 0 < n2.toNat by omega)
      obtain ⟨q, r, hrun, hq, hr⟩ := subtractLoop_spec d2 _ n1 d1 hlow hhigh
      rw [hrun, bind_eq_bind, bind_some]
      refine ih (-s) e2 (e1 + q * e2) n2 r d2 _ (h.step hq) ?_ ?_ (by omega) fun _ => hgt
      · rw [hd2]
        congr 1
        ring
      · rw [hd1, hd2]
        push_cast
        ring

theorem signed_eq {d : ℤ} (hd : d.natAbs < 2 ^ 32) :
    (if (d : Word).toNat ≥ 2 ^ (digitSize - 1) then
      lognot (logand mostPositiveFixnum (lognot (d : Word).toNat)) else logand lowerOnesDigit
        (d : Word).toNat) = d := by
  have hnat : ((d : Word).toNat : ℤ) = d % 2 ^ 64 := by
    rw [BitVec.toNat_intCast]
    exact Int.toNat_of_nonneg (Int.emod_nonneg _ (by decide))
  have hpow : (d : Word).toNat ≥ 2 ^ (digitSize - 1) ↔ d < 0 := by
    simp only [digitSize]
    omega
  split
  case isTrue hneg =>
    rw [hnat, logand, IntBits.land_comm, ← logand, mostPositiveFixnum, logand_mask, lognot, lognot,
      IntBits.lnot_eq, IntBits.lnot_eq]
    omega
  case isFalse hpos =>
    rw [hnat, logand, IntBits.land_comm, ← logand, lowerOnesDigit, logand_mask, digitSize]
    omega

theorem reducedRatioMod_spec (hx : x.toNat % 2 = 1) (hy : y.toNat % 2 = 1) {fuel : ℕ}
    (hfuel : 2 ^ 64 ≤ fuel) :
    ∃ (n : ℕ) (d : ℤ), reducedRatioMod fuel x y = some (n, d) ∧ (n : Word) * y = d * x ∧
      0 < n ∧ n < 2 ^ 32 ∧
      d ≠ 0 ∧ d.natAbs < 2 ^ 32 ∧ IsLeast {d | 0 < d ∧ ∃ n ≤ 2 ^ 32, Close x y d n} d.natAbs := by
  have hmul := bmod_mul x hy
  obtain ⟨c, hc⟩ : ∃ c, c = bmod x y := ⟨_, rfl⟩
  rw [← hc] at hmul
  have hneg : ~~~c + 1 = -c := (BitVec.neg_eq_not_add c).symm
  have hne : c ≠ 0 := by
    rintro rfl
    rw [← hmul, zero_mul] at hx
    exact absurd hx (by decide)
  have hlt := c.isLt
  have hpos : 0 < c.toNat := by
    rw [Nat.pos_iff_ne_zero]
    exact fun hzero => hne (eq_of_toNat_eq hzero)
  have hother : (-c).toNat = 2 ^ 64 - c.toNat := by
    rw [BitVec.toNat_neg]
    omega
  have hcast : ∀ w : Word, ((w.toNat : ℕ) : Word) = w := fun w => by simp
  have hminus : ((-(1 * ((1 : ℕ) : ℤ)) : ℤ) : Word) = -1 := rfl
  have hstart : Euclid x y 1 c.toNat (-c).toNat 1 1 := by
    refine ⟨.inl rfl, ⟨Nat.one_pos, Nat.one_pos⟩, by rw [hother]; omega, ?_, ?_, ?_⟩
    · rw [hcast, hmul]
      simp
    · rw [hcast, hminus]
      linear_combination -hmul
    · intro n d hnd
      have hdvd : 2 ^ 64 ∣ n - d * c.toNat := by
        apply dvd_of_mul_eq_zero hy
        rw [Int.cast_sub, Int.cast_mul, Int.cast_natCast, hcast]
        linear_combination hnd - d * hmul
      obtain ⟨k, hk⟩ := hdvd
      refine ⟨d + k, k, ?_, by push_cast; ring⟩
      rw [hother]
      push_cast [hlt.le]
      linear_combination hk
  obtain ⟨s, m, f, e, n, hrun, h, hm, hn⟩ :=
    reduceLoop_spec fuel 1 1 1 c (-c) 1 (-1) hstart (by simp) (by simp)
    (by omega) (by omega)
  obtain ⟨hnpos, hnlt, helt⟩ := h.bounds hx hm hn
  obtain ⟨-, hepos⟩ := h.pos
  have habs : (-(s * e)).natAbs = e := by
    rcases h.sign with rfl | rfl <;> omega
  refine ⟨n.toNat, -(s * e), ?_, h.right, hnpos, hnlt, by omega, by omega, ?_, ?_⟩
  · simp only [reducedRatioMod, ← hc, hneg, hrun, bind_eq_bind, bind_some]
    rw [signed_eq (by omega)]
  · refine ⟨by omega, n.toNat, hn, ?_⟩
    rw [habs, Close, h.right]
    rcases h.sign with rfl | rfl
    · right
      rw [one_mul, Int.cast_neg, Int.cast_natCast]
    · left
      rw [neg_one_mul, neg_neg, Int.cast_natCast]
  · rintro d ⟨hd, n', hn', hclose⟩
    rw [habs]
    exact h.least hm hd hn' hclose

/-- A result with the quotient, whose numbers are positive and below a bound. -/
def Reduces (fuel : ℕ) (x y : Word) (bound : ℤ) : Prop :=
  ∃ (n : ℕ) (d : ℤ), reducedRatioMod fuel x y = some (n, d) ∧ (n : Word) * y = d * x ∧
    (0 < (n : ℤ) ∧ n < bound) ∧ 0 < |d| ∧ |d| < bound

/-- With the least denominator for which there is a numerator up to half a digit, neither is all
ones. -/
def BelowOnes (x y : Word) : Prop :=
  ∀ d n : ℕ, IsLeast {d | 0 < d ∧ ∃ n ≤ 2 ^ 32, Close x y d n} d → n ≤ 2 ^ 32 → Close x y d n →
    (d : ℤ) ≠ lowerOnesDigit ∧ (n : ℤ) ≠ lowerOnesDigit

theorem reduces_iff (hx : x.toNat % 2 = 1) (hy : y.toNat % 2 = 1) {fuel : ℕ}
    (hfuel : 2 ^ 64 ≤ fuel) :
    Reduces fuel x y (lowerOnesDigit + 1) ∧ (Reduces fuel x y lowerOnesDigit ↔ BelowOnes x y) := by
  obtain ⟨n, d, hrun, hnd, hnpos, hnlt, hd, hdlt, hleast⟩ := reducedRatioMod_spec hx hy hfuel
  obtain ⟨⟨-, n', hn', hclose⟩, -⟩ := id hleast
  have hones : lowerOnesDigit = 2 ^ 32 - 1 := rfl
  have hclose' : Close x y d.natAbs n := by
    rcases Int.natAbs_eq d with h | h
    · left; rw [hnd]; congr 1; conv_lhs => rw [h, Int.cast_natCast]
    · right; rw [hnd]; congr 1; conv_lhs => rw [h, Int.cast_neg, Int.cast_natCast]
  refine ⟨⟨n, d, hrun, hnd, by omega, abs_pos.2 hd, by rw [Int.abs_eq_natAbs]; omega⟩, ?_, ?_⟩
  · rintro ⟨n₁, d₁, hrun₁, -, hn₁, -, hd₁⟩ d₂ n₂ hleast₂ hn₂ hclose₂
    obtain ⟨rfl, rfl⟩ := Prod.mk.inj (Option.some.inj (hrun.symm.trans hrun₁))
    obtain rfl := hleast.unique hleast₂
    obtain rfl := hclose₂.unique hy hclose' hn₂ hnlt.le
    rw [Int.abs_eq_natAbs] at hd₁
    omega
  · intro hbelow
    have := hbelow _ _ hleast hnlt.le hclose'
    refine ⟨n, d, hrun, hnd, by omega, abs_pos.2 hd, by rw [Int.abs_eq_natAbs]; omega⟩

/-- The quotients are right, and the numbers of a reduced ratio are of half a digit; they are below
the bound of the comment unless one of them is all ones. -/
theorem reducedRatioMod_iff (x y : Word) (hx : x.toNat % 2 = 1) (hy : y.toNat % 2 = 1) (fuel : ℕ)
    (hfuel : 2 ^ 64 ≤ fuel) :
    (∀ u v : Word, v.toNat % 2 = 1 → bmod u v * v = u) ∧ Reduces fuel x y (lowerOnesDigit + 1) ∧
      (Reduces fuel x y lowerOnesDigit ↔ BelowOnes x y) :=
  ⟨fun u _ hv => bmod_mul u hv, reduces_iff hx hy hfuel⟩

theorem reducedRatioMod_iff_seven :
    bmod 1 7 * 7 = 1 ∧ (Reduces (2 ^ 64) 3 5 lowerOnesDigit ↔ BelowOnes 3 5) :=
  have h := reducedRatioMod_iff 3 5 rfl rfl (2 ^ 64) (le_refl _)
  ⟨h.1 1 7 rfl, h.2.2⟩

theorem not_reduces_ones :
    ¬Reduces (2 ^ 64) (BitVec.ofInt 64 (-(2 ^ 32 - 1))) 1 lowerOnesDigit := by
  intro h
  have hclose : Close (BitVec.ofInt 64 (-(2 ^ 32 - 1))) 1 1 (2 ^ 32 - 1) := .inr (by decide)
  have hbelow := (reduces_iff (by decide) (by decide) (le_refl _)).2.1 h
  exact (hbelow 1 (2 ^ 32 - 1) ⟨⟨Nat.one_pos, _, by decide, hclose⟩,
    fun d hd => hd.1⟩ (by decide) hclose).2 rfl

end Sbcl.Ratio
