import Mathlib.NumberTheory.Bertrand

/-!
# Prime table sizes (code/target-lfhash.lisp, code/target-package.lisp)

* `positivePrimep` : trial division by the numbers prime to 6;
* `chooseGoodSize` : the first prime from an odd number on.
-/

namespace Sbcl.Packages

open Nat

/-- The loop of `positive-primep`, with the quotient and the remainder of the division before. -/
def primeLoop (x : ℕ) : ℕ → ℕ → ℕ → ℕ → ℕ → Bool
  | 0, _, _, _, _ => false
  | fuel + 1, q, r, inc, d =>
    if r = 0 ∨ q < d then r ≠ 0 else primeLoop x fuel (x / d) (x % d) (inc ^^^ 6) (d + inc)

def positivePrimep (x : ℕ) : Bool :=
  if x ≤ 5 then 2 ≤ x ∧ x ≠ 4 else x % 2 ≠ 0 && x % 3 ≠ 0 && primeLoop x x 6 1 2 5

/-- The loop of `choose-good-size`. -/
def chooseGoodSize : ℕ → ℕ → ℕ
  | 0, n => n
  | fuel + 1, n => if positivePrimep n then n else chooseGoodSize fuel (n + 2)

/-! ## Trial division -/

/-- The numbers below `d` do not divide `x`, unless the remainder is zero. -/
structure Trial (x q r inc d : ℕ) : Prop where
  wheel : d % 6 = 5 ∧ inc = 2 ∨ d % 6 = 1 ∧ inc = 4
  lower : 5 ≤ d
  upper : d ≤ q → d < x
  divides : r = 0 → ∃ m, 2 ≤ m ∧ m < x ∧ m ∣ x
  trial : r ≠ 0 → ∀ m, 2 ≤ m → m < d → ¬ m ∣ x
  quotient : q < d → x < d * d

theorem Trial.next {x q r inc d : ℕ} (h : Trial x q r inc d) (h2 : ¬ 2 ∣ x) (h3 : ¬ 3 ∣ x)
    (hr : r ≠ 0) (hq : d ≤ q) : Trial x (x / d) (x % d) (inc ^^^ 6) (d + inc) := by
  have hdx := h.upper hq
  have hlower := h.lower
  refine ⟨?_, by omega, fun hle => ?_, fun hr0 => ⟨d, by omega, hdx, dvd_of_mod_eq_zero hr0⟩,
    fun hr0 m hm hmd hdvd => ?_, fun hlt => ?_⟩
  · rcases h.wheel with ⟨hd, rfl⟩ | ⟨hd, rfl⟩
    · exact .inr ⟨by omega, rfl⟩
    · exact .inl ⟨by omega, rfl⟩
  · exact hle.trans_lt (Nat.div_lt_self (by omega) (by omega))
  · by_cases hmd' : m < d
    · exact h.trial hr m hm hmd' hdvd
    -- The numbers that the wheel skips are multiples of 2 or 3.
    have hcases : m = d ∨ 2 ∣ m ∨ 3 ∣ m := by
      rcases h.wheel with ⟨hd, rfl⟩ | ⟨hd, rfl⟩ <;> omega
    rcases hcases with rfl | hm2 | hm3
    · exact hr0 (mod_eq_zero_of_dvd hdvd)
    · exact h2 (hm2.trans hdvd)
    · exact h3 (hm3.trans hdvd)
  · have hdiv := lt_mul_div_succ x (show 0 < d by omega)
    have hle : d * (x / d + 1) ≤ d * (d + inc) := Nat.mul_le_mul_left d (by omega)
    have hle' : d * (d + inc) ≤ (d + inc) * (d + inc) := Nat.mul_le_mul_right _ (by omega)
    omega

theorem primeLoop_iff {x : ℕ} (h5 : 5 < x) (h2 : ¬ 2 ∣ x) (h3 : ¬ 3 ∣ x) : ∀ {fuel q r inc d : ℕ},
    Trial x q r inc d → 0 < fuel → x + 1 < fuel + d → (primeLoop x fuel q r inc d = true ↔ x.Prime)
  | fuel + 1, q, r, inc, d, h, _, hfuel => by
    unfold primeLoop
    by_cases hr : r = 0
    · obtain ⟨m, hm, hmx, hdvd⟩ := h.divides hr
      rw [if_pos (.inl hr)]
      simp only [hr, ne_eq, not_true_eq_false, decide_false, Bool.false_eq_true, false_iff]
      intro hprime
      rcases (dvd_prime hprime).mp hdvd with rfl | rfl <;> omega
    · by_cases hq : q < d
      · rw [if_pos (.inr hq)]
        simp only [ne_eq, hr, not_false_eq_true, decide_true, true_iff]
        have hx := h.quotient hq
        refine prime_def_le_sqrt.mpr ⟨by omega, fun m hm hsqrt hdvd => ?_⟩
        have hmd : m < d := by
          by_contra hle
          have hmm : m * m ≤ x := le_sqrt.mp hsqrt
          have hdd : d * d ≤ m * m := Nat.mul_le_mul (by omega) (by omega)
          omega
        exact h.trial hr m hm hmd hdvd
      · rw [if_neg (by simp [hr, hq])]
        have hdx := h.upper (by omega)
        have hinc : 2 ≤ inc := by
          rcases h.wheel with ⟨-, rfl⟩ | ⟨-, rfl⟩ <;> omega
        exact primeLoop_iff h5 h2 h3 (h.next h2 h3 hr (by omega)) (by omega) (by omega)

theorem positivePrimep_iff (x : ℕ) : positivePrimep x = true ↔ x.Prime := by
  unfold positivePrimep
  by_cases hsmall : x ≤ 5
  · rw [if_pos hsmall]
    interval_cases x <;> simp <;> decide
  rw [if_neg hsmall]
  have hnot : ∀ p : ℕ, 1 < p → p ≤ 5 → p ∣ x → ¬ x.Prime := by
    intro p hp hp5 hdvd hprime
    rcases (dvd_prime hprime).mp hdvd with rfl | rfl <;> omega
  by_cases h2 : 2 ∣ x
  · have hmod := mod_eq_zero_of_dvd h2
    simp [hmod, hnot 2 (by omega) (by omega) h2]
  by_cases h3 : 3 ∣ x
  · have hmod := mod_eq_zero_of_dvd h3
    simp [hmod, hnot 3 (by omega) (by omega) h3]
  have hloop : primeLoop x x 6 1 2 5 = true ↔ x.Prime := by
    refine primeLoop_iff (by omega) h2 h3 ⟨.inl ⟨rfl, rfl⟩, by omega, fun _ => by omega, by omega,
      fun _ m hm hmd hdvd => ?_, by omega⟩ (by omega) (by omega)
    interval_cases m
    · exact h2 hdvd
    · exact h3 hdvd
    · exact h2 (Dvd.dvd.trans (by decide) hdvd)
  have hmod2 : x % 2 ≠ 0 := fun h => h2 (dvd_of_mod_eq_zero h)
  have hmod3 : x % 3 ≠ 0 := fun h => h3 (dvd_of_mod_eq_zero h)
  simp [hmod2, hmod3, hloop]

theorem chooseGoodSize_spec : ∀ {fuel n p : ℕ}, p.Prime → n ≤ p → n % 2 = 1 → p % 2 = 1 →
    p ≤ n + 2 * fuel →
    (chooseGoodSize fuel n).Prime ∧ n ≤ chooseGoodSize fuel n ∧ chooseGoodSize fuel n % 2 = 1
  | 0, n, p, hprime, hle, hn, _, hfuel => by
    have heq : n = p := by omega
    exact ⟨heq ▸ hprime, Nat.le_refl _, hn⟩
  | fuel + 1, n, p, hprime, hle, hn, hp, hfuel => by
    unfold chooseGoodSize
    by_cases hprimep : positivePrimep n = true
    · rw [if_pos hprimep]
      exact ⟨(positivePrimep_iff n).mp hprimep, Nat.le_refl _, hn⟩
    rw [if_neg hprimep]
    have hne : n ≠ p := by
      rintro rfl
      exact hprimep ((positivePrimep_iff n).mpr hprime)
    obtain ⟨h1, h2, h3⟩ :=
      @chooseGoodSize_spec fuel (n + 2) p hprime (by omega) (by omega) hp (by omega)
    exact ⟨h1, by omega, h3⟩

/-- There is a prime up to twice the number, so that many steps are enough. -/
theorem chooseGoodSize_prime {n : ℕ} (hn : n % 2 = 1) :
    (chooseGoodSize (n + 1) n).Prime ∧ n ≤ chooseGoodSize (n + 1) n ∧
    chooseGoodSize (n + 1) n % 2 = 1 := by
  obtain ⟨p, hprime, hlt, hle⟩ := exists_prime_lt_and_le_two_mul n (by omega)
  by_cases hodd : p % 2 = 1
  · exact chooseGoodSize_spec hprime hlt.le hn hodd (by omega)
  · -- The only even prime comes after 1.
    have hp2 : p = 2 := (hprime.eq_two_or_odd).resolve_right hodd
    exact chooseGoodSize_spec prime_three (by omega) hn rfl (by omega)

end Sbcl.Packages
