import Mathlib.Data.Nat.Digits.Lemmas

/-!
# Digits in a base, the most significant first

* `significant b n` : the digits of `n` without a leading zero, none of zero;
* `numeral b n` : the same with one digit for zero;
* `padded b k n` : the `k` lowest digits of `n`;
* `horner b` : the number that digits are read as, by multiplication and addition.
-/

namespace Numeral

open List Nat

def significant (b n : ℕ) : List ℕ := (Nat.digits b n).reverse

def numeral (b n : ℕ) : List ℕ := if n = 0 then [0] else significant b n

def padded (b : ℕ) : ℕ → ℕ → List ℕ
  | 0, _ => []
  | k + 1, n => padded b k (n / b) ++ [n % b]

def horner (b acc : ℕ) (digits : List ℕ) : ℕ := digits.foldl (fun acc d => acc * b + d) acc

variable {b k n : ℕ}

@[simp] theorem significant_zero (b : ℕ) : significant b 0 = [] := by
  unfold significant
  rw [digits_zero]
  rfl

theorem significant_of_pos (hb : 1 < b) (hn : 0 < n) :
    significant b n = significant b (n / b) ++ [n % b] := by
  unfold significant
  rw [digits_def' hb hn, reverse_cons]

theorem significant_of_lt (hb : 1 < b) (hn : 0 < n) (h : n < b) : significant b n = [n] := by
  rw [significant_of_pos hb hn, div_eq_of_lt h, mod_eq_of_lt h, significant_zero, nil_append]

theorem lt_of_mem_significant (hb : 1 < b) {d : ℕ} (h : d ∈ significant b n) : d < b :=
  digits_lt_base hb (mem_reverse.1 h)

theorem length_significant_le (hb : 1 < b) (h : n < b ^ k) : (significant b n).length ≤ k := by
  unfold significant
  rw [length_reverse]
  exact (digits_length_le_iff hb n).2 h

theorem numeral_of_pos (h : 0 < n) : numeral b n = significant b n := if_neg h.ne'

theorem numeral_ne_nil (hb : 1 < b) (n : ℕ) : numeral b n ≠ [] := by
  rcases Nat.eq_zero_or_pos n with rfl | hn
  · exact cons_ne_nil _ _
  · rw [numeral_of_pos hn, significant_of_pos hb hn]
    exact append_ne_nil_of_right_ne_nil _ (cons_ne_nil _ _)

theorem numeral_succ (hb : 1 < b) (n : ℕ) :
    numeral b n = (if n / b = 0 then [] else numeral b (n / b)) ++ [n % b] := by
  rcases Nat.eq_zero_or_pos n with rfl | hn
  · rw [Nat.zero_div, if_pos rfl, zero_mod]
    rfl
  rw [numeral_of_pos hn, significant_of_pos hb hn]
  split
  · rw [‹n / b = 0›, significant_zero]
  · rw [numeral_of_pos (Nat.pos_of_ne_zero ‹_›)]

theorem lt_of_mem_numeral (hb : 1 < b) {d : ℕ} (h : d ∈ numeral b n) : d < b := by
  unfold numeral at h
  split at h
  · rw [mem_singleton.1 h]
    omega
  · exact lt_of_mem_significant hb h

theorem length_numeral_le (hb : 1 < b) (hk : 0 < k) (h : n < b ^ k) : (numeral b n).length ≤ k := by
  unfold numeral
  split
  · exact hk
  · exact length_significant_le hb h

/-! ## A fixed number of digits -/

@[simp] theorem padded_zero (b k : ℕ) : padded b k 0 = List.replicate k 0 := by
  induction k with
  | zero => rfl
  | succ k ih => rw [padded, Nat.zero_div, zero_mod, ih, replicate_succ']

theorem padded_add (b j k n : ℕ) : padded b (j + k) n = padded b j (n / b ^ k) ++ padded b k n := by
  induction k generalizing n with
  | zero => rw [pow_zero, Nat.div_one, Nat.add_zero, padded, append_nil]
  | succ k ih =>
    rw [← Nat.add_assoc, padded, ih, padded, Nat.div_div_eq_div_mul, ← pow_succ', append_assoc]

theorem padded_mod (b k n : ℕ) : padded b k (n % b ^ k) = padded b k n := by
  induction k generalizing n with
  | zero => rfl
  | succ k ih =>
    have hmod : n % b ^ (k + 1) % b = n % b :=
      mod_mod_of_dvd n (Dvd.intro_left _ (pow_succ b k).symm)
    have hdiv : n % b ^ (k + 1) / b = n / b % b ^ k := by
      rw [pow_succ', mod_mul_right_div_self]
    rw [padded, padded, hmod, hdiv, ih]

theorem significant_append (hb : 1 < b) (k : ℕ) (h : 0 < n / b ^ k) :
    significant b n = significant b (n / b ^ k) ++ padded b k n := by
  induction k generalizing n with
  | zero => rw [pow_zero, Nat.div_one, padded, append_nil]
  | succ k ih =>
    have hdiv : n / b / b ^ k = n / b ^ (k + 1) := by rw [Nat.div_div_eq_div_mul, ← pow_succ']
    rw [significant_of_pos hb (Nat.pos_of_ne_zero fun h0 => by simp [h0] at h),
      ih (hdiv ▸ h), hdiv, padded, append_assoc]

theorem padded_eq_significant (hb : 1 < b) (h : n < b ^ k) :
    padded b k n = List.replicate (k - (significant b n).length) 0 ++ significant b n := by
  induction k generalizing n with
  | zero =>
    obtain rfl := lt_one_iff.1 (pow_zero b ▸ h)
    rw [significant_zero]
    rfl
  | succ k ih =>
    rcases Nat.eq_zero_or_pos n with rfl | hn
    · rw [padded_zero, significant_zero, append_nil, length_nil, Nat.sub_zero]
    · rw [padded, ih (Nat.div_lt_of_lt_mul (pow_succ' b k ▸ h)),
        significant_of_pos hb hn, append_assoc,
        length_append, length_singleton, Nat.add_sub_add_right]

theorem padded_eq_numeral (hb : 1 < b) (hk : 0 < k) (h : n < b ^ k) :
    padded b k n = List.replicate (k - (numeral b n).length) 0 ++ numeral b n := by
  rcases Nat.eq_zero_or_pos n with rfl | hn
  · obtain ⟨k, rfl⟩ : ∃ j, k = j + 1 := ⟨k - 1, by omega⟩
    rw [padded_zero, numeral, if_pos rfl, length_singleton, Nat.add_sub_cancel, replicate_succ']
  · rw [numeral_of_pos hn, padded_eq_significant hb h]

theorem padded_eq_of_le (hb : 1 < b) (h : n < b ^ (k + 1)) (hn : b ^ k ≤ n) :
    padded b (k + 1) n = significant b n := by
  have hpos : 0 < b ^ k := Nat.pow_pos (by omega)
  have hq : 0 < n / b ^ k := Nat.div_pos hn hpos
  have hlt : n / b ^ k < b := Nat.div_lt_of_lt_mul (pow_succ b k ▸ h)
  rw [significant_append hb k hq, significant_of_lt hb hq hlt, Nat.add_comm, padded_add, padded,
    padded, nil_append, mod_eq_of_lt hlt]

theorem horner_cons (b acc d : ℕ) (l : List ℕ) : horner b acc (d :: l) = horner b (acc * b + d) l :=
  rfl

theorem horner_append (b acc : ℕ) (l l' : List ℕ) :
    horner b acc (l ++ l') = horner b (horner b acc l) l' := by
  unfold horner
  rw [foldl_append]

theorem horner_eq (b acc : ℕ) (l : List ℕ) :
    horner b acc l = acc * b ^ l.length + horner b 0 l := by
  induction l generalizing acc with
  | nil => rw [length_nil, pow_zero, Nat.mul_one]; rfl
  | cons d l ih =>
    rw [horner_cons, horner_cons, ih, ih (0 * b + d), length_cons, pow_succ]
    ring

theorem horner_lt {l : List ℕ} (h : ∀ d ∈ l, d < b) : horner b 0 l < b ^ l.length := by
  induction l using List.reverseRecOn with
  | nil => exact Nat.one_pos
  | append_singleton l d ih =>
    have hl := ih fun d hd => h d (mem_append_left _ hd)
    have hd := h d (mem_append_right _ (mem_singleton_self d))
    rw [horner_append, length_append, length_singleton, pow_succ]
    calc horner b 0 l * b + d < horner b 0 l * b + b := by omega
      _ = (horner b 0 l + 1) * b := by ring
      _ ≤ b ^ l.length * b := Nat.mul_le_mul_right b hl

theorem horner_significant (hb : 1 < b) (n : ℕ) : horner b 0 (significant b n) = n := by
  induction n using Nat.strong_induction_on with
  | _ n ih =>
    rcases Nat.eq_zero_or_pos n with rfl | hn
    · rw [significant_zero]
      rfl
    · rw [significant_of_pos hb hn, horner_append, ih _ (Nat.div_lt_self hn hb)]
      exact div_add_mod' n b

theorem horner_numeral (hb : 1 < b) (n : ℕ) : horner b 0 (numeral b n) = n := by
  rcases Nat.eq_zero_or_pos n with rfl | hn
  · rw [numeral, if_pos rfl, horner_cons, Nat.zero_mul]
    rfl
  · rw [numeral_of_pos hn, horner_significant hb]

end Numeral
