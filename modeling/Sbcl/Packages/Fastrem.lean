import Sbcl.Integer
import Sbcl.Lib.Reciprocal
import Sbcl.Packages.SymbolTable

/-!
# Parameters of fast remainders (compiler/generic/utils.lisp, code/target-package.lisp)

* `computeFastremCoefficient` : a scaled reciprocal of a divisor, and its number of fraction bits;
* `optimizedSymtblRemainderParams` : the mask and the coefficient for the cells of a symbol table;
* `Fastrem` : what a coefficient with that many fraction bits needs for dividends of that many bits;
* `Fastrem.mod_eq` : with it, the remainder is exact.

Divisors are positive.
-/

namespace Sbcl.Packages

open Option
open SymbolTables (fastrem32)

/-- `fraction-bits` -/
inductive FractionBits where
  | variable
  | bits (n : ℕ)

/-- "Need ~D fraction bits for divisor ~D and ~D bit dividend" -/
structure FastremError where
  smallestF : ℕ
  d : ℕ
  n : ℕ
  deriving DecidableEq

/-- `(ceiling (expt 2 f) d)` -/
def scaledReciprocal (d f : ℕ) : ℕ := (2 ^ f + (d - 1)) / d

def isPow2 (n : ℕ) : Bool := n = 2 ^ (integerLength n - 1)

/-- The loop over `l`. -/
def smallestFraction (d n : ℕ) : ℕ → ℕ → Option (ℕ × ℕ)
  | 0, _ => none
  | fuel + 1, l =>
    let f := n + l
    if d ≤ 2 ^ f % d + 2 ^ l then some (f, scaledReciprocal d f)
      else smallestFraction d n fuel (l + 1)

/-- `smallest-f` and `c` -/
def smallestF (d n : ℕ) : Option (ℕ × ℕ) :=
  if isPow2 d then some (integerLength d - 1, 1) else smallestFraction d n (integerLength d + 1) 0

def computeFastremCoefficient (d n : ℕ) (fractionBits : FractionBits) :
    Option (Except FastremError (ℕ × ℕ)) := do
  let (smallestF, c) ← smallestF d n
  match fractionBits with
  | .variable => some (.ok (c, smallestF))
  | .bits bits =>
    if bits < smallestF then some (.error ⟨smallestF, d, n⟩)
      else some (.ok (scaledReciprocal d bits, bits))

/-- The loop of `optimized-symtbl-remainder-params`. -/
def remainderParamsLoop (denominator minNumeratorBits : ℕ) :
    ℕ → ℕ → Option (Except FastremError (ℕ × ℕ))
  | 0, _ => none
  | fuel + 1, n => do
      match ← computeFastremCoefficient denominator n .variable with
      | .error e => some (.error e)
      | .ok (c, fracBits) =>
        if fracBits = 32 then some (.ok (2 ^ n - 1, c))
        else if 32 < fracBits then
          if minNumeratorBits < n then do
            match ← computeFastremCoefficient denominator (n - 1) (.bits 32) with
            | .error e => some (.error e)
            | .ok (c, _) => some (.ok (2 ^ (n - 1) - 1, c))
          else some (.ok (2 ^ 32 - 1, 0))
        else remainderParamsLoop denominator minNumeratorBits fuel (n + 1)

/-- `optimized-symtbl-remainder-params`: the mask and `c`. -/
def optimizedSymtblRemainderParams (denominator : ℕ) : Option (Except FastremError (ℕ × ℕ)) :=
  if denominator ≤ 2 ∨ logcount denominator = 1 then some (.ok (0, 0))
  else
    let minNumeratorBits := integerLength denominator + 2
    remainderParamsLoop denominator minNumeratorBits 33 minNumeratorBits

/-! ## Coefficients that are near enough -/

/-- The coefficient is above the reciprocal, with an error that a dividend of `n` bits does not
bring up to one. -/
structure Fastrem (d n f c : ℕ) : Prop where
  lower : 2 ^ f ≤ c * d
  upper : (c * d - 2 ^ f) * 2 ^ n ≤ 2 ^ f

variable {d n f c : ℕ}

theorem Fastrem.mod_eq {x : ℕ} (h : Fastrem d n f c) (hd : 0 < d) (hx : x < 2 ^ n) :
    x * c % 2 ^ f * d / 2 ^ f = x % d := by
  refine mul_mod_mul_div hd h.lower ?_
  rcases Nat.eq_zero_or_pos (c * d - 2 ^ f) with hzero | hpos
  · rw [hzero, zero_mul]
    positivity
  · calc (c * d - 2 ^ f) * x < (c * d - 2 ^ f) * 2 ^ n := by gcongr
      _ ≤ 2 ^ f := h.upper

theorem scaledReciprocal_mul (hd : 0 < d) (f : ℕ) : 2 ^ f ≤ scaledReciprocal d f * d ∧
    scaledReciprocal d f * d ≤ 2 ^ f + (d - 1) := by
  unfold scaledReciprocal
  have hdiv := Nat.div_add_mod (2 ^ f + (d - 1)) d
  have hmod := Nat.mod_lt (2 ^ f + (d - 1)) hd
  rw [mul_comm] at hdiv
  omega

theorem Fastrem.scaledReciprocal {g : ℕ} (hd : 0 < d) (h : Fastrem d n f c) (hg : f ≤ g) :
    Fastrem d n g (scaledReciprocal d g) where
  lower := (scaledReciprocal_mul hd g).1
  upper := by
    obtain ⟨k, rfl⟩ := Nat.exists_eq_add_of_le hg
    obtain ⟨hlow, hup⟩ := scaledReciprocal_mul hd (f + k)
    -- rounding up at `f` bits and then shifting cannot be nearer
    have hle : Packages.scaledReciprocal d (f + k) * d ≤ c * d * 2 ^ k := by
      have hle : Packages.scaledReciprocal d (f + k) ≤ c * 2 ^ k := by
        have hshift : 2 ^ (f + k) ≤ c * 2 ^ k * d := by
          calc 2 ^ (f + k) = 2 ^ f * 2 ^ k := pow_add ..
            _ ≤ c * d * 2 ^ k := by gcongr; exact h.lower
            _ = c * 2 ^ k * d := by ring
        by_contra hlt
        have hlt' : (c * 2 ^ k + 1) * d ≤ Packages.scaledReciprocal d (f + k) * d := by
          gcongr; omega
        rw [add_mul, one_mul] at hlt'
        omega
      calc Packages.scaledReciprocal d (f + k) * d ≤ c * 2 ^ k * d := by gcongr
        _ = c * d * 2 ^ k := by ring
    calc (Packages.scaledReciprocal d (f + k) * d - 2 ^ (f + k)) * 2 ^ n
        ≤ (c * d * 2 ^ k - 2 ^ f * 2 ^ k) * 2 ^ n := by rw [pow_add]; gcongr
      _ = (c * d - 2 ^ f) * 2 ^ n * 2 ^ k := by rw [← Nat.sub_mul]; ring
      _ ≤ 2 ^ f * 2 ^ k := by gcongr; exact h.upper
      _ = 2 ^ (f + k) := (pow_add ..).symm

theorem fastrem_of_le {l : ℕ} (hd : 0 < d) (h : d ≤ 2 ^ (n + l) % d + 2 ^ l) :
    Fastrem d n (n + l) (scaledReciprocal d (n + l)) where
  lower := (scaledReciprocal_mul hd (n + l)).1
  upper := by
    obtain ⟨hlow, hup⟩ := scaledReciprocal_mul hd (n + l)
    have hmod := Nat.mod_lt (2 ^ (n + l)) hd
    have herror : scaledReciprocal d (n + l) * d - 2 ^ (n + l) ≤ 2 ^ l := by
      -- the product is the next multiple of `d`
      have hdiv := Nat.div_add_mod (2 ^ (n + l)) d
      have hle : scaledReciprocal d (n + l) ≤ 2 ^ (n + l) / d + 1 := by
        by_contra hlt
        have hlt' : (2 ^ (n + l) / d + 2) * d ≤ scaledReciprocal d (n + l) * d := by gcongr; omega
        rw [add_mul, mul_comm (2 ^ (n + l) / d)] at hlt'
        omega
      have hle' : scaledReciprocal d (n + l) * d ≤ (2 ^ (n + l) / d + 1) * d := by gcongr
      rw [add_mul, mul_comm (2 ^ (n + l) / d), one_mul] at hle'
      omega
    calc (scaledReciprocal d (n + l) * d - 2 ^ (n + l)) * 2 ^ n ≤ 2 ^ l * 2 ^ n := by gcongr
      _ = 2 ^ (n + l) := by rw [← pow_add, add_comm]

/-! ## The loops return -/

theorem smallestFraction_spec (hd : 0 < d) : ∀ {fuel l}, l ≤ integerLength d →
    integerLength d < l + fuel →
    ∃ f, smallestFraction d n fuel l = some (f, scaledReciprocal d f) ∧ n ≤ f ∧
      Fastrem d n f (scaledReciprocal d f)
  | 0, l, hle, h => by omega
  | fuel + 1, l, hle, h => by
    rw [smallestFraction]
    split
    · rename_i hle
      exact ⟨n + l, rfl, by omega, fastrem_of_le hd hle⟩
    rename_i hlt
    refine smallestFraction_spec hd ?_ (by omega)
    -- at the length of the divisor, the power is above it
    by_contra hlength
    have hsize : integerLength d ≤ l := by omega
    rw [integerLength_le_iff (by positivity)] at hsize
    have : d < 2 ^ l := by exact_mod_cast hsize
    omega

theorem eq_of_isPow2 (h : isPow2 d = true) : d = 2 ^ (integerLength d - 1) := of_decide_eq_true h

theorem computeFastremCoefficient_variable (hd : 0 < d) (n : ℕ) :
    ∃ c f, computeFastremCoefficient d n .variable = some (.ok (c, f)) ∧ Fastrem d n f c ∧
      (isPow2 d = false → n ≤ f ∧ c = scaledReciprocal d f) := by
  unfold computeFastremCoefficient smallestF
  by_cases hpow : isPow2 d = true
  · rw [if_pos hpow]
    have heq := eq_of_isPow2 hpow
    refine ⟨1, integerLength d - 1, rfl, ⟨?_, ?_⟩, fun h => ?_⟩
    · rw [one_mul, ← heq]
    · rw [one_mul, ← heq, Nat.sub_self, zero_mul]
      exact d.zero_le
    · rw [hpow] at h
      cases h
  · rw [if_neg hpow]
    have hlength : integerLength d < 0 + (integerLength d + 1) := by omega
    obtain ⟨f, hf, hle, hfastrem⟩ :=
      smallestFraction_spec (n := n) hd (integerLength d).zero_le hlength
    rw [hf]
    exact ⟨_, f, rfl, hfastrem, fun _ => ⟨hle, rfl⟩⟩

theorem computeFastremCoefficient_bits {bits : ℕ}
    (h : computeFastremCoefficient d n .variable = some (.ok (c, f)))
    (hbits : f ≤ bits) : computeFastremCoefficient d n (.bits bits) =
      some (.ok (scaledReciprocal d bits, bits)) := by
  unfold computeFastremCoefficient at h ⊢
  cases hsmallest : smallestF d n with
  | none =>
    rw [hsmallest] at h
    cases h
  | some fc =>
    obtain ⟨f', c'⟩ := fc
    rw [hsmallest] at h
    simp only [bind_eq_bind, bind_some, Option.some.injEq, Except.ok.injEq, Prod.mk.injEq] at h ⊢
    obtain ⟨rfl, rfl⟩ := h
    rw [if_neg (by omega)]

/-- What the parameters of a table are good for. -/
def ParamsFor (d mask c : ℕ) : Prop :=
  c = 0 ∨ ∃ k, mask = 2 ^ k - 1 ∧ c = scaledReciprocal d 32 ∧ Fastrem d k 32 c

/-- As long as the loop goes on, the coefficient for one bit less has less than 32 fraction bits. -/
theorem remainderParamsLoop_spec {m : ℕ} (hd : 0 < d) (hpow : isPow2 d = false) : ∀ {fuel n},
    32 < n + fuel → 0 < fuel →
    (m < n → ∃ c f, computeFastremCoefficient d (n - 1) .variable = some (.ok (c, f)) ∧ f < 32 ∧
      Fastrem d (n - 1) f c) →
      ∃ mask c, remainderParamsLoop d m fuel n = some (.ok (mask, c)) ∧ ParamsFor d mask c
  | fuel + 1, n, h, _, hbefore => by
    obtain ⟨c, f, hcompute, hfastrem, hvariable⟩ := computeFastremCoefficient_variable hd n
    obtain ⟨hnf, hc⟩ := hvariable hpow
    rw [remainderParamsLoop, hcompute]
    simp only [bind_eq_bind, bind_some]
    by_cases heq : f = 32
    · subst heq
      rw [if_pos rfl]
      exact ⟨_, c, rfl, .inr ⟨n, rfl, hc, hfastrem⟩⟩
    rw [if_neg heq]
    by_cases hlt : 32 < f
    · rw [if_pos hlt]
      by_cases hm : m < n
      · rw [if_pos hm]
        obtain ⟨c', f', hcompute', hf', hfastrem'⟩ := hbefore hm
        rw [computeFastremCoefficient_bits hcompute' hf'.le]
        exact ⟨_, _, rfl, .inr ⟨n - 1, rfl, rfl, hfastrem'.scaledReciprocal hd hf'.le⟩⟩
      · rw [if_neg hm]
        exact ⟨_, 0, rfl, .inl rfl⟩
    · rw [if_neg hlt]
      refine remainderParamsLoop_spec hd hpow (by omega) (by omega) fun _ =>
        ⟨c, f, ?_, by omega, ?_⟩
      · rw [Nat.add_sub_cancel, hcompute]
      · rwa [Nat.add_sub_cancel]

theorem optimizedSymtblRemainderParams_spec (hd : 0 < d) (hpow : isPow2 d = false) :
    ∃ mask c, optimizedSymtblRemainderParams d = some (.ok (mask, c)) ∧ ParamsFor d mask c := by
  unfold optimizedSymtblRemainderParams
  split
  · exact ⟨0, 0, rfl, .inl rfl⟩
  · exact remainderParamsLoop_spec hd hpow (by omega) (by omega) fun h => absurd h (lt_irrefl _)

theorem scaledReciprocal_lt (hd : 2 ≤ d) (hf : f ≠ 0) : scaledReciprocal d f < 2 ^ f := by
  have hle := (scaledReciprocal_mul (show 0 < d by omega) f).2
  by_contra hge
  have hmul : 2 ^ f * d ≤ scaledReciprocal d f * d := by gcongr; omega
  have htwo : 2 ^ f * 2 + (d - 2) ≤ 2 ^ f * d := by
    obtain ⟨k, rfl⟩ := Nat.exists_eq_add_of_le hd
    rw [mul_add, Nat.add_sub_cancel_left]
    exact Nat.add_le_add_left (Nat.le_mul_of_pos_left k (Nat.two_pow_pos f)) _
  have hpos : 1 < 2 ^ f := Nat.one_lt_two_pow hf
  omega

/-- The parameters for the cells of a symbol table, and the coefficients for any divisor and length,
give exact remainders. -/
theorem fastrem_exact :
    (∀ d h : ℕ, 3 ≤ d → (∀ k, d ≠ 2 ^ k) → h < 2 ^ 32 → ∃ mask c, optimizedSymtblRemainderParams d =
      some (.ok (mask, c)) ∧ (c = 0 ∨ c < 2 ^ 32 ∧ fastrem32 (h &&& mask) c d = (h &&& mask) % d)) ∧
    ∀ d n : ℕ, 0 < d → ∃ c f, computeFastremCoefficient d n .variable = some (.ok (c, f)) ∧
      ∀ x < 2 ^ n, x * c % 2 ^ f * d / 2 ^ f = x % d := by
  refine ⟨fun d h hd hpow _ => ?_, fun d n hd => ?_⟩
  · have hnot : isPow2 d = false := decide_eq_false (hpow _)
    obtain ⟨mask, c, hparams, hfor⟩ :=
      optimizedSymtblRemainderParams_spec (show 0 < d by omega) hnot
    refine ⟨mask, c, hparams, hfor.imp_right fun ⟨k, hmask, hc, hfastrem⟩ => ⟨?_, ?_⟩⟩
    · rw [hc]
      exact scaledReciprocal_lt (by omega) (by decide)
    · refine hfastrem.mod_eq (by omega) ?_
      rw [hmask, Nat.and_two_pow_sub_one_eq_mod]
      exact Nat.mod_lt _ (Nat.two_pow_pos k)
  · obtain ⟨c, f, hcompute, hfastrem, -⟩ := computeFastremCoefficient_variable hd n
    exact ⟨c, f, hcompute, fun x hx => hfastrem.mod_eq hd hx⟩

theorem fastrem_exact_seven : (∃ mask c, optimizedSymtblRemainderParams 7 = some (.ok (mask, c)) ∧
      (c = 0 ∨ c < 2 ^ 32 ∧ fastrem32 (4000000000 &&& mask) c 7 = (4000000000 &&& mask) % 7)) ∧
    ∃ c f, computeFastremCoefficient 7 20 .variable = some (.ok (c, f)) ∧ ∀ x < 2 ^ 20,
      x * c % 2 ^ f * 7 / 2 ^ f = x % 7 := by
  refine ⟨fastrem_exact.1 7 4000000000 (by decide) (fun k hk => ?_) (by decide),
    fastrem_exact.2 7 20 (by decide)⟩
  have hlt : k < 3 := (Nat.pow_lt_pow_iff_right (show 1 < 2 by decide)).1 (by omega)
  interval_cases k <;> omega

end Sbcl.Packages
