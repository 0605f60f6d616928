import Mathlib.Data.Fintype.EquivFin
import Mathlib.Data.Int.ModEq
import Mathlib.Data.Nat.Prime.Basic
import Mathlib.Data.Set.Function
import Mathlib.Tactic.Ring

/-!
# Probe sequences

* `position` : the cells that are probed, with a step that is the same for the whole sequence;
* `position_injective`, `exists_position` : with a step prime to the number of the cells, every cell
  is probed once;
* `exists_first` : the first probe that a test accepts, if any cell passes it;
* `triangular`, `exists_triangular` : probes by triangular numbers, where the number of the cells is
  a power of two;
* `Placement` : cells for keys of which each takes the cell of one that is less far in its own
  sequence.
-/

namespace Sbcl.Probing

open Nat

/-- The cell of the probe `k`, from the cell `start` on by `step`. -/
def position (n start step k : ℕ) : ℕ := (start + k * step) % n

variable {n start step : ℕ}

theorem position_lt (hn : 0 < n) (k : ℕ) : position n start step k < n := Nat.mod_lt _ hn

theorem position_zero (hstart : start < n) : position n start step 0 = start := by
  unfold position
  rw [Nat.zero_mul, Nat.add_zero, mod_eq_of_lt hstart]

theorem position_succ (k : ℕ) :
    position n start step (k + 1) = (position n start step k + step) % n := by
  unfold position
  rw [mod_add_mod, succ_mul, Nat.add_assoc]

theorem position_injective (hstep : step.Coprime n) {k l : ℕ} (hk : k < n) (hl : l < n)
    (h : position n start step k = position n start step l) : k = l := by
  have hmod : start + k * step ≡ start + l * step [MOD n] := h
  have hmul : k * step ≡ l * step [MOD n] := Nat.ModEq.add_left_cancel' start hmod
  have hkl : k ≡ l [MOD n] := Nat.ModEq.cancel_right_of_coprime hstep.symm hmul
  rwa [Nat.ModEq, mod_eq_of_lt hk, mod_eq_of_lt hl] at hkl

theorem exists_position (hstep : step.Coprime n) {i : ℕ} (hi : i < n) :
    ∃ k < n, position n start step k = i := by
  have hn : 0 < n := zero_lt_of_lt hi
  have hinj : Function.Injective fun k : Fin n =>
      (⟨position n start step k, position_lt hn k⟩ : Fin n) := by
    intro k l hkl
    exact Fin.ext (position_injective hstep k.isLt l.isLt (congrArg Fin.val hkl))
  obtain ⟨k, hk⟩ := (Finite.injective_iff_surjective.mp hinj) ⟨i, hi⟩
  exact ⟨k, k.isLt, congrArg Fin.val hk⟩

theorem exists_first (hstep : step.Coprime n) {test : ℕ → Prop} {i : ℕ} (hi : i < n)
    (htest : test i) :
    ∃ k < n, test (position n start step k) ∧ ∀ j < k, ¬ test (position n start step j) := by
  classical
  obtain ⟨k, hk, rfl⟩ := @exists_position n start step hstep i hi
  have hex : ∃ k, test (position n start step k) := ⟨k, htest⟩
  refine ⟨Nat.find hex, lt_of_le_of_lt (Nat.find_min' hex htest) hk, Nat.find_spec hex,
    fun j hj => Nat.find_min hex hj⟩

/-! ## Triangular numbers -/

/-- The distance of the probe `k`, from 1 on. -/
def triangular (k : ℕ) : ℕ := k * (k - 1) / 2

theorem two_mul_triangular (k : ℕ) : 2 * triangular k = k * (k - 1) := by
  unfold triangular
  rw [Nat.mul_div_cancel' (even_mul_pred_self k).two_dvd]

/-- The distances of two probes differ by a product of which one factor is odd. -/
theorem triangular_sub {k l : ℕ} (hk : 0 < k) (hkl : k ≤ l) :
    2 * triangular l = 2 * triangular k + (l - k) * (l + k - 1) := by
  obtain ⟨d, rfl⟩ := Nat.exists_eq_add_of_le hkl
  obtain ⟨j, rfl⟩ := exists_eq_succ_of_ne_zero hk.ne'
  rw [two_mul_triangular, two_mul_triangular, succ_eq_add_one, Nat.add_sub_cancel_left,
    show j + 1 + d - 1 = j + d by omega, show j + 1 - 1 = j by omega, show j + 1 + d + (j + 1) - 1 =
    2 * j + 1 + d by omega]
  ring

theorem triangular_injective {bits k l : ℕ} (hk : 0 < k) (hkl : k < l) (hl : l ≤ 2 ^ bits) :
    ¬ triangular k ≡ triangular l [MOD 2 ^ bits] := by
  intro h
  have hdvd : 2 ^ (bits + 1) ∣ (l - k) * (l + k - 1) := by
    have hsub := triangular_sub hk hkl.le
    have hle : triangular k ≤ triangular l := by omega
    obtain ⟨q, hq⟩ := (modEq_iff_dvd' hle).1 h
    refine ⟨q, ?_⟩
    rw [pow_succ]
    calc (l - k) * (l + k - 1) = 2 * (2 ^ bits * q) := by omega
      _ = 2 ^ bits * 2 * q := by ring
  rcases even_or_odd (l - k) with heven | hodd
  · have hodd : Odd (l + k - 1) := by
      rw [← not_even_iff_odd]
      intro heven'
      obtain ⟨a, ha⟩ := heven
      obtain ⟨b, hb⟩ := heven'
      omega
    have hcop : Nat.Coprime (2 ^ (bits + 1)) (l + k - 1) := (hodd.coprime_two_left).pow_left _
    have := le_of_dvd (by omega) (hcop.dvd_of_dvd_mul_right hdvd)
    omega
  · have hcop : Nat.Coprime (2 ^ (bits + 1)) (l - k) := (hodd.coprime_two_left).pow_left _
    have := le_of_dvd (by omega) (hcop.dvd_of_dvd_mul_left hdvd)
    omega

theorem exists_triangular {bits i : ℕ} (hi : i < 2 ^ bits) (start : ℤ) :
    ∃ k, 0 < k ∧ k ≤ 2 ^ bits ∧ ((start + triangular k) % (2 ^ bits : ℕ)).toNat = i := by
  have hlt : ∀ k : ℕ, ((start + triangular k) % (2 ^ bits : ℕ)).toNat < 2 ^ bits := by
    intro k
    omega
  have hne : ∀ k l : ℕ, 0 < k → k < l → l ≤ 2 ^ bits →
      ((start + triangular k) % (2 ^ bits : ℕ)).toNat ≠
        ((start + triangular l) % (2 ^ bits : ℕ)).toNat := by
    intro k l hk hkl hl heq
    have hmod : (start + triangular k) ≡ (start + triangular l) [ZMOD (2 ^ bits : ℕ)] := by
      unfold Int.ModEq
      omega
    exact triangular_injective hk hkl hl
      ((Int.natCast_modEq_iff).1 (Int.ModEq.add_left_cancel' start hmod))
  have hinj : Function.Injective fun k : Fin (2 ^ bits) =>
      (⟨((start + triangular (k + 1)) % (2 ^ bits : ℕ)).toNat, hlt (k + 1)⟩ : Fin (2 ^ bits)) := by
    intro k l hkl
    have hval := congrArg Fin.val hkl
    rcases lt_trichotomy k.val l.val with h | h | h
    · exact absurd hval (hne _ _ (succ_pos _) (succ_lt_succ h) l.isLt)
    · exact Fin.ext h
    · exact absurd hval.symm (hne _ _ (succ_pos _) (succ_lt_succ h) k.isLt)
  obtain ⟨k, hk⟩ := (Finite.injective_iff_surjective.mp hinj) ⟨i, hi⟩
  exact ⟨k + 1, succ_pos _, k.isLt, congrArg Fin.val hk⟩

/-! ## Placements -/

section Placement

open Function

variable {T C : Type*} {keys : Set T} {seq : T → ℕ → C} {barred : Set C} {bound : ℕ}
    {pos place : T → ℕ} {x y : T}

/-- The cell has a key that has come to position `r` at least. -/
def Held (keys : Set T) (seq : T → ℕ → C) (place : T → ℕ) (c : C) (r : ℕ) : Prop :=
  ∃ u ∈ keys, seq u (place u) = c ∧ r ≤ place u

/-- Each key has a position in its sequence, and the cell there, except `x`, which is past its
position. A placement moves the keys on to different cells, past no barred one; a cell that a key
had, or is moved past, is left to keys that are at least as far. -/
structure Placement (keys : Set T) (seq : T → ℕ → C) (barred : Set C) (bound : ℕ) (x : T)
    (pos place : T → ℕ) : Prop where
  lt_place : pos x < place x
  le_place : ∀ t ∈ keys, pos t ≤ place t
  place_lt : ∀ t ∈ keys, place t < bound
  injOn : Set.InjOn (fun t => seq t (place t)) keys
  notMem_barred : ∀ t ∈ keys, ∀ r, pos t < r → r ≤ place t → seq t r ∉ barred
  passed : ∀ t ∈ keys, ∀ r, pos t < r → r < place t → Held keys seq place (seq t r) r
  kept : ∀ t ∈ keys, t ≠ x → Held keys seq place (seq t (pos t)) (pos t)

/-- The placement does not depend on the names of the keys. -/
theorem Placement.comp (e : Equiv.Perm T) (h : Placement keys seq barred bound (e x) pos place) :
    Placement (Set.preimage e keys)
      (fun t => seq (e t)) barred bound x (fun t => pos (e t)) fun t => place (e t) := by
  have hheld : ∀ {c : C} {r : ℕ}, Held keys seq place c r →
      Held (Set.preimage e keys) (fun t => seq (e t)) (fun t => place (e t)) c r := by
    rintro c r ⟨u, hu⟩
    obtain ⟨t, rfl⟩ := e.surjective u
    exact ⟨t, hu⟩
  constructor
  · exact h.lt_place
  · exact fun t ht => h.le_place _ ht
  · exact fun t ht => h.place_lt _ ht
  · exact fun t ht u hu heq => e.injective (h.injOn ht hu heq)
  · exact fun t ht => h.notMem_barred _ ht
  · exact fun t ht r hlt hle => hheld (h.passed _ ht r hlt hle)
  · exact fun t ht hne => hheld (h.kept _ ht fun heq => hne (e.injective heq))

theorem exists_placement_comp_iff (e : Equiv.Perm T) :
    (∃ place, Placement keys seq barred bound (e x) pos place) ↔
    ∃ place, Placement (Set.preimage e keys)
      (fun t => seq (e t)) barred bound x (fun t => pos (e t)) place := by
  constructor
  · exact fun ⟨place, h⟩ => ⟨_, h.comp e⟩
  · rintro ⟨place, h⟩
    rw [← e.symm_apply_apply x] at h
    have := h.comp e.symm
    simp only [← Set.preimage_comp, Equiv.self_comp_symm, Set.preimage_id,
      Equiv.apply_symm_apply] at this
    exact ⟨_, this⟩

variable [DecidableEq T]

/-- The position of `x` is one further. -/
def advance (pos : T → ℕ) (x : T) : T → ℕ := update pos x (pos x + 1)

@[simp] theorem advance_self : advance pos x x = pos x + 1 := update_self ..

theorem advance_of_ne {t : T} (h : t ≠ x) : advance pos x t = pos t := update_of_ne h ..

theorem le_advance (t : T) : pos t ≤ advance pos x t := by
  by_cases htx : t = x
  · rw [htx, advance_self]
    exact le_succ _
  · rw [advance_of_ne htx]

theorem advance_lt_or {t : T} {r : ℕ} (h : pos t < r) : advance pos x t < r ∨ t = x ∧
    r = pos x + 1 := by
  by_cases htx : t = x
  · rw [htx] at h ⊢
    rw [advance_self]
    exact (Nat.lt_or_eq_of_le (succ_le_of_lt h)).imp_right fun heq => ⟨rfl, heq.symm⟩
  · rw [advance_of_ne htx]
    exact .inl h

/-- A free cell is taken. -/
theorem Placement.take (hx : pos x + 1 < bound) (hlt : ∀ t ∈ keys, t ≠ x → pos t < bound)
    (hinj : Set.InjOn (fun t => seq t (pos t)) (keys \ {x})) (hbarred : seq x (pos x + 1) ∉ barred)
    (hfree : ∀ t ∈ keys, t ≠ x → seq t (pos t) ≠ seq x (pos x + 1)) :
    Placement keys seq barred bound x pos (advance pos x) := by
  constructor
  · rw [advance_self]
    exact lt_succ_self _
  · exact fun t _ => le_advance t
  · intro t ht
    by_cases htx : t = x
    · rwa [htx, advance_self]
    · rw [advance_of_ne htx]
      exact hlt t ht htx
  · intro t ht u hu heq
    dsimp only at heq
    by_cases htx : t = x <;> by_cases hux : u = x
    · rw [htx, hux]
    · rw [htx, advance_self, advance_of_ne hux] at heq
      exact absurd heq.symm (hfree u hu hux)
    · rw [hux, advance_self, advance_of_ne htx] at heq
      exact absurd heq (hfree t ht htx)
    · rw [advance_of_ne htx, advance_of_ne hux] at heq
      exact hinj ⟨ht, htx⟩ ⟨hu, hux⟩ heq
  · intro t _ r hr hle
    rcases @advance_lt_or _ pos x _ t r hr with hlt | ⟨rfl, rfl⟩
    · exact absurd hle (Nat.not_le.2 hlt)
    · exact hbarred
  · intro t _ r hr hr'
    rcases @advance_lt_or _ pos x _ t r hr with hlt | ⟨rfl, rfl⟩
    · exact absurd hr' (Nat.lt_asymm hlt)
    · rw [advance_self] at hr'
      exact absurd hr' (lt_irrefl _)
  · exact fun t ht htx => ⟨t, ht, by rw [advance_of_ne htx], by rw [advance_of_ne htx]⟩

/-- The step of `x` to its next position, from which `y` is the one without a cell. -/
theorem Placement.advance (h : Placement keys seq barred bound x pos place)
    (hlt : advance pos x y < place y)
    (hheld : y ≠ x → Held keys seq place (seq x (pos x + 1)) (pos x + 1)) :
    Placement keys seq barred bound y (Probing.advance pos x) place := by
  constructor
  · exact hlt
  · intro t ht
    by_cases htx : t = x
    · rw [htx, advance_self]
      exact h.lt_place
    · rw [advance_of_ne htx]
      exact h.le_place t ht
  · exact h.place_lt
  · exact h.injOn
  · exact fun t ht r hr => h.notMem_barred t ht r (lt_of_le_of_lt (le_advance t) hr)
  · exact fun t ht r hr => h.passed t ht r (lt_of_le_of_lt (le_advance t) hr)
  · intro t ht hty
    by_cases htx : t = x
    · subst htx
      rw [advance_self]
      exact hheld hty.symm
    · rw [advance_of_ne htx]
      exact h.kept t ht htx

theorem Placement.of_advance (h : Placement keys seq barred bound y (Probing.advance pos x) place)
    (hx : x ∈ keys)
    (hbarred : seq x (pos x + 1) ∉ barred)
    (hheld : Held keys seq place (seq x (pos x + 1)) (pos x + 1))
    (hy : y ≠ x → Held keys seq place (seq y (pos y)) (pos y)) :
    Placement keys seq barred bound x pos place := by
  constructor
  · have := h.le_place x hx
    rwa [advance_self] at this
  · exact fun t ht => (le_advance t).trans (h.le_place t ht)
  · exact h.place_lt
  · exact h.injOn
  · intro t ht r hr hr'
    rcases @advance_lt_or _ pos x _ t r hr with hlt | ⟨rfl, rfl⟩
    · exact h.notMem_barred t ht r hlt hr'
    · exact hbarred
  · intro t ht r hr hr'
    rcases @advance_lt_or _ pos x _ t r hr with hlt | ⟨rfl, rfl⟩
    · exact h.passed t ht r hlt hr'
    · exact hheld
  · intro t ht htx
    by_cases hty : t = y
    · subst hty
      exact hy htx
    · have := h.kept t ht hty
      rwa [advance_of_ne htx] at this

variable (hx : x ∈ keys) (hy : y ∈ keys) (hyx : y ≠ x) (hcell : seq y (pos y) = seq x (pos x + 1))
include hx hy hyx hcell

/-- The cell of a key that is less far is taken from it. -/
theorem placement_displace_iff (hpos : pos y < pos x + 1) (hbarred : seq x (pos x + 1) ∉ barred) :
    Placement keys seq barred bound x pos place ↔
    Placement keys seq barred bound y (advance pos x) place := by
  constructor
  · intro h
    have hheld : Held keys seq place (seq x (pos x + 1)) (pos x + 1) := by
      rcases Nat.lt_or_ge (pos x + 1) (place x) with hlt | hge
      · exact h.passed x hx _ (lt_succ_self _) hlt
      · have := h.lt_place
        exact ⟨x, hx, by rw [show place x = pos x + 1 by omega], by omega⟩
    refine h.advance ?_ fun _ => hheld
    rw [advance_of_ne hyx]
    refine lt_of_le_of_ne (h.le_place y hy) fun heq => ?_
    obtain ⟨u, hu, hu', hle⟩ := hheld
    have huy : u = y := by
      apply h.injOn hu hy
      dsimp only
      rw [← heq, hcell, hu']
    rw [huy] at hle
    omega
  · intro h
    have hheld := h.kept x hx hyx.symm
    rw [advance_self] at hheld
    obtain ⟨u, hu, hu', hle⟩ := id hheld
    exact h.of_advance hx hbarred hheld fun _ => ⟨u, hu, by rw [hcell, hu'], by omega⟩

/-- The cell of a key that is as far, or further, is left to it. -/
theorem exists_placement_pass_iff (hseq : ∀ r, seq y r = seq x r → seq y = seq x)
    (hpos : pos x + 1 ≤ pos y)
    (hbarred : seq x (pos x + 1) ∉ barred) :
    (∃ place, Placement keys seq barred bound x pos place) ↔
      ∃ place, Placement keys seq barred bound x (advance pos x) place := by
  constructor
  · rintro ⟨place, h⟩
    have hlt := h.lt_place
    rcases Nat.lt_or_ge (pos x + 1) (place x) with hpass | hstop
    · exact ⟨place, h.advance (by rwa [advance_self]) fun hne => absurd rfl hne⟩
    · -- The keys have one sequence then, and the placement stands with their names exchanged.
      have heq : place x = pos x + 1 := by omega
      obtain ⟨u, hu, hu', hle⟩ := h.kept y hy hyx
      have hux : u = x := by
        apply h.injOn hu hx
        dsimp only
        rw [hu', heq, hcell]
      rw [hux, heq] at hle
      have hposy : pos y = pos x + 1 := by omega
      rw [hposy] at hcell
      have hseqs := hseq _ hcell
      have hlty : pos y < place y := by
        refine lt_of_le_of_ne (h.le_place y hy) fun hne => hyx (h.injOn hy hx ?_)
        dsimp only
        rw [← hne, hposy, heq, hcell]
      have hswap : Placement keys seq barred bound y (advance pos x) place :=
        h.advance (by rwa [advance_of_ne hyx]) fun _ => ⟨x, hx, by rw [heq], heq.ge⟩
      have hcomp :=
        (show Placement keys seq barred bound (Equiv.swap x y x) (advance pos x) place by
        rwa [Equiv.swap_apply_left]).comp (Equiv.swap x y)
      have hkeys : Set.preimage (Equiv.swap x y) keys = keys :=
        Set.ext fun t =>
          iff_of_eq (@Equiv.apply_swap_eq_self _ _ _ (· ∈ keys) x y (propext (iff_of_true hx hy)) t)
      have hpos' : advance pos x x = advance pos x y := by
        rw [advance_self, advance_of_ne hyx, hposy]
      rw [hkeys, show (fun t => seq (Equiv.swap x y t)) =
        seq from funext (Equiv.apply_swap_eq_self hseqs.symm),
        show (fun t => advance pos x (Equiv.swap x y t)) =
          advance pos x from funext (Equiv.apply_swap_eq_self hpos')] at hcomp
      exact ⟨_, hcomp⟩
  · rintro ⟨place, h⟩
    obtain ⟨u, hu, hu', hle⟩ := h.kept y hy hyx
    rw [advance_of_ne hyx] at hu' hle
    exact ⟨place, h.of_advance hx hbarred ⟨u, hu, hu'.trans hcell, hpos.trans hle⟩
      fun hne => absurd rfl hne⟩

end Placement

end Sbcl.Probing
