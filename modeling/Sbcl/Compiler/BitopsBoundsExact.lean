import Sbcl.Compiler.BitopsDeriveTypeCorrect

/-!
# The unsigned bounds of the bit operations are attained

* `raise` : the least operand that carries into a bit, which is in range where the bounds differ
  from that bit on;
* `minAnd_attained`, `minOr_attained`, `minXor_attained` : operands in range whose results are the
  lower bounds;
* `unsigned_bounds_exact` : each of the six bounds is the least or the greatest result.
-/

namespace Sbcl.Compiler

open IntBits Int

variable {e : ℕ} {r : ℤ} {op : ℤ → ℤ → ℤ}

section Attained

variable {a b c d : ℤ} {k l L lx ly : ℕ}

/-- The bits of `a` above `k`, a one in `k`, where `a` has a zero, and zeroes below. -/
def raise (a : ℤ) (k : ℕ) : ℤ := (a / 2 ^ k + 1) * 2 ^ k

theorem lt_raise (a : ℤ) (k : ℕ) : a < raise a k := lt_ediv_add_one_mul_self a (by positivity)

theorem raise_le (h : a / 2 ^ k < b / 2 ^ k) : raise a k ≤ b := by
  calc raise a k ≤ b / 2 ^ k * 2 ^ k := Int.mul_le_mul_of_nonneg_right h (by positivity)
    _ ≤ b := Int.ediv_mul_le b (by positivity)

theorem ediv_two_pow_eq_bit (a : ℤ) (k : ℕ) :
    a / 2 ^ k = Int.bit (a.testBit k) (a / 2 ^ (k + 1)) := by
  refine eq_of_testBit_eq fun i => ?_
  cases i with
  | zero => rw [testBit_ediv, testBit_bit_zero, Nat.zero_add]
  | succ i => rw [testBit_ediv, testBit_bit_succ, testBit_ediv, Nat.succ_add_eq_add_succ]

theorem testBit_raise (h : a.testBit k = false) (i : ℕ) :
    (raise a k).testBit i = (decide (i = k) || decide (k < i) && a.testBit i) := by
  have hbit : a / 2 ^ k + 1 = Int.bit true (a / 2 ^ (k + 1)) := by
    rw [ediv_two_pow_eq_bit, h, bit_val, bit_val]
    simp
  unfold raise
  rw [testBit_mul, hbit]
  rcases Nat.lt_trichotomy i k with hi | rfl | hi
  · simp [hi.ne, hi.not_gt, Nat.not_le.2 hi]
  · simp
  · obtain ⟨m, rfl⟩ := Nat.exists_eq_add_of_lt hi
    rw [show k + m + 1 - k = m + 1 by omega, testBit_bit_succ, testBit_ediv,
      show m + (k + 1) = k + m + 1 by omega]
    simp [hi, hi.ne', hi.le]

theorem ediv_lt_of_lt_integerLength (hab : a ≤ b) (hk : k < integerLength (logxor a b)) :
    a / 2 ^ k < b / 2 ^ k := by
  refine lt_of_le_of_ne (Int.ediv_le_ediv (by positivity) hab) fun heq => ?_
  have hzero : logxor a b / 2 ^ k = 0 := by
    rw [logxor, lxor_ediv, heq]
    exact eq_of_testBit_eq fun i => by simp [testBit_zero]
  have hfits : Fits k (logxor a b) := (fits_iff k _).2 (Or.inl hzero)
  exact absurd (integerLength_le_of_fits hfits) (Nat.not_le.2 hk)

/-! ## The two lower bounds -/

theorem minAnd_attained (hab : a ≤ b) (hcd : c ≤ d)
    (hL : ∀ k < L, a / 2 ^ k < b / 2 ^ k ∨ c / 2 ^ k < d / 2 ^ k) :
    ∃ x y, (a ≤ x ∧ x ≤ b) ∧ (c ≤ y ∧ y ≤ d) ∧ logand x y = minAnd a c L := by
  rcases minAnd_cases a c L with ⟨heq, -⟩ | ⟨k, hk, ha, hc, -, hbits⟩
  · exact ⟨a, c, ⟨le_rfl, hab⟩, ⟨le_rfl, hcd⟩, heq.symm⟩
  rcases hL k hk with hlt | hlt
  · refine ⟨raise a k, c, ⟨(lt_raise a k).le, raise_le hlt⟩, ⟨le_rfl, hcd⟩,
      eq_of_testBit_eq fun i => ?_⟩
    rw [testBit_logand, testBit_raise ha, hbits]
    rcases eq_or_ne i k with rfl | hi
    · simp [hc]
    · simp [hi]
  · refine ⟨a, raise c k, ⟨le_rfl, hab⟩, ⟨(lt_raise c k).le, raise_le hlt⟩,
      eq_of_testBit_eq fun i => ?_⟩
    rw [testBit_logand, testBit_raise hc, hbits]
    rcases eq_or_ne i k with rfl | hi
    · simp [ha]
    · simp [hi, Bool.and_left_comm, Bool.and_assoc]

theorem minOr_clear_attained (hlt : a / 2 ^ k < b / 2 ^ k) (ha : a.testBit k = false)
    (hc : c.testBit k = true) :
    ∃ x, (a ≤ x ∧ x ≤ b) ∧ logior x c = logior (logand a (zeroes k)) c := by
  refine ⟨raise a k, ⟨(lt_raise a k).le, raise_le hlt⟩, eq_of_testBit_eq fun i => ?_⟩
  rw [testBit_logior, testBit_logior, testBit_raise ha, testBit_logand, testBit_zeroes]
  rcases Nat.lt_trichotomy i k with hi | rfl | hi
  · simp [hi.ne, hi.not_gt, Nat.not_le.2 hi]
  · simp [hc]
  · simp [hi, hi.le, hi.ne']

theorem minOr_attained (hab : a ≤ b) (hcd : c ≤ d) (hx : ∀ k < lx, a / 2 ^ k < b / 2 ^ k)
    (hy : ∀ k < ly, c / 2 ^ k < d / 2 ^ k) :
    ∃ x y, (a ≤ x ∧ x ≤ b) ∧ (c ≤ y ∧ y ≤ d) ∧ logior x y = minOr a c lx ly := by
  have hindex {l k : ℕ} {a c : ℤ} (hk : integerLength (logand (logand (ones l) (lognot a)) c) =
    k + 1) :
      k < l ∧ a.testBit k = false ∧ c.testBit k = true := by
    have hbit := testBit_of_integerLength_eq hk
    rw [testBit_index, decide_eq_false (index_nonneg l a c)] at hbit
    simpa [and_assoc] using hbit
  unfold minOr
  simp only
  split_ifs with heq hgt
  · exact ⟨a, c, ⟨le_rfl, hab⟩, ⟨le_rfl, hcd⟩, rfl⟩
  · obtain ⟨k, hk⟩ := Nat.exists_eq_add_of_lt (Nat.zero_lt_of_lt (Nat.cast_lt.1 hgt))
    rw [Nat.zero_add] at hk
    obtain ⟨hkl, ha, hc⟩ := hindex hk
    obtain ⟨x, hx', heq'⟩ := minOr_clear_attained (hx k hkl) ha hc
    exact ⟨x, c, hx',
      ⟨le_rfl, hcd⟩, by rw [hk, show ((k + 1 : ℕ) : ℤ) - 1 = k by push_cast; ring, heq']⟩
  · obtain ⟨k, hk⟩ :=
      Nat.exists_eq_add_of_lt (show 0 <
        integerLength (logand (logand (ones ly) (lognot c)) a) by omega)
    rw [Nat.zero_add] at hk
    obtain ⟨hkl, hc, ha⟩ := hindex hk
    obtain ⟨y, hy', heq'⟩ := minOr_clear_attained (hy k hkl) hc ha
    exact ⟨a, y, ⟨le_rfl, hab⟩, hy', by rw [hk, show ((k + 1 : ℕ) : ℤ) - 1 = k by push_cast; ring,
      logior_comm, heq']⟩

/-! ## The lower bound of `logxor` -/

/-- The lower bound of `logxor`, for ranges that change below `L` only. -/
def minXor (a b c d : ℤ) (L : ℕ) : ℤ := logior (minAnd a (lognot d) L) (minAnd (lognot b) c L)

theorem minAnd_comm (a c : ℤ) (L : ℕ) : minAnd a c L = minAnd c a L := by
  have hindex : logior (logior (zeroes L) a) c = logior (logior (zeroes L) c) a :=
    eq_of_testBit_eq fun i => by simp [Bool.or_right_comm]
  unfold minAnd
  rw [hindex, logand_comm a c]

theorem minXor_swap (a b c d : ℤ) (L : ℕ) : minXor c d a b L = minXor a b c d L := by
  unfold minXor
  rw [minAnd_comm c, minAnd_comm (lognot d), logior_comm]

theorem minXor_lognot (a b c d : ℤ) (L : ℕ) : minXor (lognot b) (lognot a) (lognot d) (lognot c) L =
    minXor a b c d L := by
  unfold minXor
  rw [lognot_lognot, lognot_lognot, logior_comm]

theorem testBit_logxor (x y : ℤ) (i : ℕ) :
    (logxor x y).testBit i = (x.testBit i != y.testBit i) := by
  rw [logxor, testBit_lxor]

theorem testBit_of_ediv_eq (h : a / 2 ^ e = b / 2 ^ e) {i : ℕ} (hi : e ≤ i) :
    a.testBit i = b.testBit i := by
  have hbit := congrArg (fun n => n.testBit (i - e)) h
  simpa [testBit_ediv, Nat.sub_add_cancel hi] using hbit

theorem testBit_of_ediv_lt (h : a / 2 ^ (e + 1) = b / 2 ^ (e + 1)) (hlt : a / 2 ^ e < b / 2 ^ e) :
    a.testBit e = false ∧ b.testBit e = true := by
  rw [ediv_two_pow_eq_bit a, ediv_two_pow_eq_bit b, h, bit_val, bit_val] at hlt
  cases ha : a.testBit e <;> cases hb : b.testBit e <;> simp_all

theorem ediv_lt_of_testBit (h : a / 2 ^ (e + 1) = b / 2 ^ (e + 1)) (ha : a.testBit e = false)
    (hb : b.testBit e = true) : a / 2 ^ e < b / 2 ^ e := by
  rw [ediv_two_pow_eq_bit a, ediv_two_pow_eq_bit b, h, ha, hb, bit_val, bit_val]
  simp

theorem le_of_ediv_lt (h : a / 2 ^ e < b / 2 ^ e) : a ≤ b := by
  by_contra hn
  exact absurd (Int.ediv_le_ediv (show (0 : ℤ) < 2 ^ e by positivity) (not_le.1 hn).le) (not_le.2 h)

theorem exists_raised {e k : ℕ} (n : ℤ) (hke : k < e) (ha : a.testBit k = false)
    (hlt : a / 2 ^ e < b / 2 ^ e) :
    ∃ x, (a ≤ x ∧ x ≤ b) ∧ ∀ i,
      x.testBit i = if i < k then n.testBit i else (raise a k).testBit i := by
  have hbits (i : ℕ) : (Integer.dpb n k 0 (raise a k)).testBit i =
      if i < k then n.testBit i else (raise a k).testBit i := by
    rw [Integer.testBit_dpb]
    simp
  have hlow : Integer.dpb n k 0 (raise a k) / 2 ^ k = a / 2 ^ k + 1 := by
    rw [← mul_ediv_cancel (a / 2 ^ k + 1) (show (2 : ℤ) ^ k ≠ 0 by positivity)]
    refine eq_of_testBit_eq fun i => ?_
    rw [testBit_ediv, hbits, if_neg (by omega), testBit_ediv]
    rfl
  have hhigh : Integer.dpb n k 0 (raise a k) / 2 ^ e = a / 2 ^ e := by
    refine eq_of_testBit_eq fun i => ?_
    rw [testBit_ediv, hbits, if_neg (by omega), testBit_raise ha, testBit_ediv]
    simp [show i + e ≠ k by omega, show k < i + e by omega]
  exact ⟨_, ⟨le_of_ediv_lt (e := k) (by omega), le_of_ediv_lt (hhigh ▸ hlt)⟩, hbits⟩

theorem minXor_attained_zero (hx : a / 2 ^ (e + 1) = b / 2 ^ (e + 1))
    (hy : c / 2 ^ (e + 1) = d / 2 ^ (e + 1)) (hcd : c ≤ d)
    (hlt : a / 2 ^ e < b / 2 ^ e) (hc : c.testBit e = false) :
    ∃ x y, (a ≤ x ∧ x ≤ b) ∧ (c ≤ y ∧ y ≤ d) ∧ logxor x y = minXor a b c d (e + 1) := by
  obtain ⟨hae, hbe⟩ := testBit_of_ediv_lt hx hlt
  have hab : a ≤ b := le_of_ediv_lt hlt
  have hxi {i : ℕ} (hi : e < i) : a.testBit i = b.testBit i := testBit_of_ediv_eq hx hi
  have hyi {i : ℕ} (hi : e < i) : c.testBit i = d.testBit i := testBit_of_ediv_eq hy hi
  -- the second part has the bits above `e` only
  have hsecond (i : ℕ) : (minAnd (lognot b) c (e + 1)).testBit i =
      (decide (e < i) && !b.testBit i && c.testBit i) := by
    rcases minAnd_cases (lognot b) c (e + 1) with ⟨-, hone⟩ | ⟨j, hj, -, -, hone, hbits⟩
    · exact absurd (hone e (by omega) (by simp [hbe])) (by simp [hc])
    have hje : j = e := by
      by_contra hne
      exact absurd (hone e (by omega) (by omega) (by simp [hbe])) (by simp [hc])
    rw [hbits, testBit_lognot, hje]
  have hbits (x y : ℤ) (first : ℕ → Bool) (hfirst : ∀ i,
      (minAnd a (lognot d) (e + 1)).testBit i = first i)
      (h : ∀ i, (x.testBit i != y.testBit i) =
        (first i || decide (e < i) && !b.testBit i && c.testBit i)) :
      logxor x y = minXor a b c d (e + 1) :=
    eq_of_testBit_eq fun i => by rw [testBit_logxor, h, minXor, testBit_logior, hfirst, hsecond]
  rcases minAnd_cases a (lognot d) (e + 1) with ⟨heq, hone⟩ | ⟨k, hk, hak, hdk, hone, hfirst⟩
  · refine ⟨a, d, ⟨le_rfl, hab⟩, ⟨hcd, le_rfl⟩,
      hbits a d _ (fun i => by rw [heq, testBit_logand, testBit_lognot]) fun i => ?_⟩
    rcases le_or_gt i e with hi | hi
    · have hle := hone i (by omega)
      rw [testBit_lognot] at hle
      cases ha : a.testBit i <;> simp_all [hi.not_gt]
    · rw [← hxi hi, ← hyi hi]
      cases a.testBit i <;> cases c.testBit i <;> simp [hi]
  · simp only [testBit_lognot, Bool.not_eq_false'] at hdk hfirst
    rcases eq_or_ne k e with rfl | hke
    · have hlt' := ediv_lt_of_testBit hy hc hdk
      refine ⟨raise a k, raise c k, ⟨(lt_raise a k).le, raise_le hlt⟩,
        ⟨(lt_raise c k).le, raise_le hlt'⟩, hbits _ _ _ hfirst fun i => ?_⟩
      rw [testBit_raise hae, testBit_raise hc]
      rcases Nat.lt_trichotomy i k with hi | rfl | hi
      · simp [hi.ne, hi.not_gt]
      · simp
      · rw [← hxi hi, ← hyi hi]
        cases a.testBit i <;> cases c.testBit i <;> simp [hi, hi.ne']
    · obtain ⟨x, hx', hxbits⟩ := exists_raised d (show k < e by omega) hak hlt
      refine ⟨x, d, hx', ⟨hcd, le_rfl⟩, hbits x d _ hfirst fun i => ?_⟩
      rw [hxbits, testBit_raise hak]
      rcases Nat.lt_trichotomy i k with hi | rfl | hi
      · simp [hi, hi.not_gt, show ¬e < i by omega]
      · simp [hdk, show ¬e < i by omega]
      rcases le_or_gt i e with hie | hie
      · have hle := hone i hi (by omega)
        rw [testBit_lognot] at hle
        cases ha : a.testBit i <;> simp_all [hi.ne', hi.not_gt, hie.not_gt]
      · rw [← hxi hie, ← hyi hie]
        cases a.testBit i <;> cases c.testBit i <;> simp [hi, hi.ne', hi.not_gt, hie]

theorem minXor_attained_left (hx : a / 2 ^ (e + 1) = b / 2 ^ (e + 1))
    (hy : c / 2 ^ (e + 1) = d / 2 ^ (e + 1)) (hcd : c ≤ d) (hlt : a / 2 ^ e < b / 2 ^ e) :
    ∃ x y, (a ≤ x ∧ x ≤ b) ∧ (c ≤ y ∧ y ≤ d) ∧ logxor x y = minXor a b c d (e + 1) := by
  cases hc : c.testBit e with
  | false => exact minXor_attained_zero hx hy hcd hlt hc
  | true =>
    have hd : d.testBit e = true := by
      by_contra hd
      have hdc := ediv_lt_of_testBit hy.symm (Bool.eq_false_iff.2 hd) hc
      exact absurd (Int.ediv_le_ediv (show (0 : ℤ) < 2 ^ e by positivity) hcd) (not_le.2 hdc)
    have hlt' : lognot b / 2 ^ e < lognot a / 2 ^ e := by
      rw [lognot_ediv, lognot_ediv, lognot_eq, lognot_eq]
      omega
    obtain ⟨x, y, hx', hy', heq⟩ :=
      minXor_attained_zero (lognot_ediv_agree hx.symm) (lognot_ediv_agree hy.symm)
        (lognot_le hcd) hlt'
      (by rw [testBit_lognot, hd]; rfl)
    have hrange {m n k : ℤ} (h : lognot n ≤ k ∧ k ≤ lognot m) : m ≤ lognot k ∧ lognot k ≤ n := by
      rw [lognot_eq, lognot_eq] at h
      rw [lognot_eq]
      omega
    refine ⟨lognot x, lognot y, hrange hx', hrange hy', ?_⟩
    rw [minXor_lognot] at heq
    rw [← heq]
    refine eq_of_testBit_eq fun i => ?_
    rw [testBit_logxor, testBit_logxor, testBit_lognot, testBit_lognot]
    cases x.testBit i <;> cases y.testBit i <;> rfl

theorem minXor_attained (hab : a ≤ b) (hcd : c ≤ d) (hx : a / 2 ^ L = b / 2 ^ L)
    (hy : c / 2 ^ L = d / 2 ^ L)
    (hL : ∀ e, L = e + 1 → a / 2 ^ e < b / 2 ^ e ∨ c / 2 ^ e < d / 2 ^ e) :
    ∃ x y, (a ≤ x ∧ x ≤ b) ∧ (c ≤ y ∧ y ≤ d) ∧ logxor x y = minXor a b c d L := by
  cases L with
  | zero =>
    rw [pow_zero, ediv_one, ediv_one] at hx hy
    subst hx hy
    have hand (m n : ℤ) : minAnd m n 0 = logand m n := by
      rcases minAnd_cases m n 0 with ⟨heq, -⟩ | ⟨k, hk, -⟩
      · exact heq
      · exact absurd hk (Nat.not_lt_zero k)
    refine ⟨a, c, ⟨le_rfl, le_rfl⟩, ⟨le_rfl, le_rfl⟩, eq_of_testBit_eq fun i => ?_⟩
    rw [minXor, hand, hand, testBit_logxor, testBit_logior, testBit_logand, testBit_logand,
      testBit_lognot, testBit_lognot]
    cases a.testBit i <;> cases c.testBit i <;> rfl
  | succ e =>
    rcases hL e rfl with hlt | hlt
    · exact minXor_attained_left hx hy hcd hlt
    obtain ⟨y, x, hy', hx', heq⟩ := minXor_attained_left hy hx hab hlt
    refine ⟨x, y, hx', hy', ?_⟩
    rw [← minXor_swap, ← heq]
    exact lxor_comm x y

end Attained

/-! ## The unsigned bounds -/

/-- Two bounds that are the least and the greatest result of an operation on members of two types.
-/
def ExactBounds (op : ℤ → ℤ → ℤ) (x y : IntegerType) (bounds : Option (ℤ × ℤ)) : Prop :=
  ∃ low high, bounds = some (low, high) ∧ IsLeast {n | Results op x y n} low ∧
    IsGreatest {n | Results op x y n} high

section Exact

variable {x y : IntegerType} {a b c d : ℤ}

theorem exactBounds_of {bounds : Option (ℤ × ℤ)} {low high : ℤ} (heq : bounds = some (low, high))
    (hsound : ∃ low high, bounds = some (low, high) ∧ ∀ m ∈ x, ∀ n ∈ y,
      low ≤ op m n ∧ op m n ≤ high)
    (hlow : Results op x y low) (hhigh : Results op x y high) : ExactBounds op x y bounds := by
  obtain ⟨low', high', heq', hmem⟩ := hsound
  obtain ⟨rfl, rfl⟩ : low' = low ∧ high' = high := by simpa using heq'.symm.trans heq
  refine ⟨low', high', heq, ⟨hlow, ?_⟩, ⟨hhigh, ?_⟩⟩
  · rintro n ⟨m, hm, k, hk, rfl⟩
    exact (hmem m hm k hk).1
  · rintro n ⟨m, hm, k, hk, rfl⟩
    exact (hmem m hm k hk).2

theorem results_of (ha : x.low = some a) (hb : x.high = some b) (hc : y.low = some c)
    (hd : y.high = some d)
    (h : ∃ m n, (a ≤ m ∧ m ≤ b) ∧ (c ≤ n ∧ n ≤ d) ∧ op m n = r) : Results op x y r := by
  obtain ⟨m, n, hm, hn, rfl⟩ := h
  exact ⟨m, ⟨by simpa [ha] using hm.1, by simpa [hb] using hm.2⟩, n,
    ⟨by simpa [hc] using hn.1, by simpa [hd] using hn.2⟩, rfl⟩

theorem exists_of_lognot (op op' : ℤ → ℤ → ℤ)
    (hop : ∀ m n, op (lognot m) (lognot n) = lognot (op' m n))
    (h : ∃ m n, (lognot b ≤ m ∧ m ≤ lognot a) ∧ (lognot d ≤ n ∧ n ≤ lognot c) ∧ op' m n = r) :
    ∃ m n, (a ≤ m ∧ m ≤ b) ∧ (c ≤ n ∧ n ≤ d) ∧ op m n = lognot r := by
  obtain ⟨m, n, hm, hn, rfl⟩ := h
  simp only [lognot_eq] at hm hn
  refine ⟨lognot m, lognot n, ?_, ?_, hop m n⟩
  · rw [lognot_eq]
    omega
  · rw [lognot_eq]
    omega

theorem ediv_lognot_lt {k : ℕ} (h : a / 2 ^ k < b / 2 ^ k) :
    lognot b / 2 ^ k < lognot a / 2 ^ k := by
  rw [lognot_ediv, lognot_ediv, lognot_eq, lognot_eq]
  omega

theorem logandDeriveUnsignedBounds_exact (hx : x.Unsigned) (hy : y.Unsigned) :
    ExactBounds logand x y (logandDeriveUnsignedBounds x y) := by
  have hsound := logandDeriveUnsignedBounds_spec hx hy
  obtain ⟨a, b, ha, hb, -⟩ := hx
  obtain ⟨c, d, hc, hd, -⟩ := hy
  have hab := x.valid a ha b hb
  have hcd := y.valid c hc d hd
  set lx := integerLength (logxor a b) with hlx
  set ly := integerLength (logxor c d) with hly
  have hdx (k : ℕ) (hk : k < lx) : a / 2 ^ k < b / 2 ^ k := ediv_lt_of_lt_integerLength hab hk
  have hdy (k : ℕ) (hk : k < ly) : c / 2 ^ k < d / 2 ^ k := ediv_lt_of_lt_integerLength hcd hk
  have heq : logandDeriveUnsignedBounds x y = some (minAnd a c (max lx ly),
      lognot (minOr (lognot b) (lognot d) lx ly)) := by
    rw [lognot_minOr, logandDeriveUnsignedBounds, ha, hb, hc, hd]
    rfl
  refine exactBounds_of heq hsound (results_of ha hb hc hd ?_) (results_of ha hb hc hd ?_)
  · exact minAnd_attained hab hcd fun k hk => (lt_max_iff.1 hk).imp (hdx k) (hdy k)
  · refine exists_of_lognot logand logior (fun m n => by rw [logand_eq_lognot, lognot_lognot,
      lognot_lognot]) ?_
    exact minOr_attained (lognot_le hab) (lognot_le hcd) (fun k hk => ediv_lognot_lt (hdx k hk))
      fun k hk => ediv_lognot_lt (hdy k hk)

theorem logiorDeriveUnsignedBounds_exact (hx : x.Unsigned) (hy : y.Unsigned) :
    ExactBounds logior x y (logiorDeriveUnsignedBounds x y) := by
  obtain ⟨a, b, ha, hb, ha0⟩ := hx
  obtain ⟨c, d, hc, hd, hc0⟩ := hy
  have hab := x.valid a ha b hb
  have hcd := y.valid c hc d hd
  have hsound : ∃ low high, logiorDeriveUnsignedBounds x y = some (low, high) ∧ ∀ m ∈ x, ∀ n ∈ y,
      low ≤ logior m n ∧ logior m n ≤ high := by
    obtain ⟨low, high, heq, -, hmem⟩ :=
      logiorDeriveUnsignedBounds_spec (x := x) (y := y) ⟨b, hb, ha0.trans hab⟩ ⟨d,
        hd, hc0.trans hcd⟩
    exact ⟨low, high, heq, fun m hm n hn =>
      hmem m hm n hn (ha0.trans (IntegerType.low_le hm ha)) (hc0.trans (IntegerType.low_le hn hc))⟩
  set lx := integerLength (logxor a b) with hlx
  set ly := integerLength (logxor c d) with hly
  have hdx (k : ℕ) (hk : k < lx) : a / 2 ^ k < b / 2 ^ k := ediv_lt_of_lt_integerLength hab hk
  have hdy (k : ℕ) (hk : k < ly) : c / 2 ^ k < d / 2 ^ k := ediv_lt_of_lt_integerLength hcd hk
  have heq : logiorDeriveUnsignedBounds x y = some (minOr a c lx ly,
      lognot (minAnd (lognot b) (lognot d) (max lx ly))) := by
    rw [lognot_minAnd, logiorDeriveUnsignedBounds, ha, hb, hc, hd, Option.getD_some,
      Option.getD_some, max_eq_left ha0, max_eq_left hc0]
    rfl
  refine exactBounds_of heq hsound (results_of ha hb hc hd ?_) (results_of ha hb hc hd ?_)
  · exact minOr_attained hab hcd hdx hdy
  · refine exists_of_lognot logior logand (fun m n => by rw [logior_eq_lognot, lognot_lognot,
      lognot_lognot]) ?_
    refine minAnd_attained (lognot_le hab) (lognot_le hcd) fun k hk => ?_
    exact (lt_max_iff.1 hk).imp (fun h => ediv_lognot_lt (hdx k h)) fun h =>
      ediv_lognot_lt (hdy k h)

theorem logxorDeriveUnsignedBounds_exact (hx : x.Unsigned) (hy : y.Unsigned) :
    ExactBounds logxor x y (logxorDeriveUnsignedBounds x y) := by
  have hsound := logxorDeriveUnsignedBounds_spec hx hy
  obtain ⟨a, b, ha, hb, ha0⟩ := hx
  obtain ⟨c, d, hc, hd, hc0⟩ := hy
  have hab := x.valid a ha b hb
  have hcd := y.valid c hc d hd
  set lx := integerLength (logxor a b) with hlx
  set ly := integerLength (logxor c d) with hly
  have hdx (k : ℕ) (hk : k < lx) : a / 2 ^ k < b / 2 ^ k := ediv_lt_of_lt_integerLength hab hk
  have hdy (k : ℕ) (hk : k < ly) : c / 2 ^ k < d / 2 ^ k := ediv_lt_of_lt_integerLength hcd hk
  have hex : a / 2 ^ max lx ly = b / 2 ^ max lx ly :=
    ediv_agree_mono (ediv_agree_low ha0 hab le_rfl) (le_max_left lx ly)
  have hey : c / 2 ^ max lx ly = d / 2 ^ max lx ly :=
    ediv_agree_mono (ediv_agree_low hc0 hcd le_rfl) (le_max_right lx ly)
  have hdiff {e : ℕ} (he : max lx ly = e + 1) : a / 2 ^ e < b / 2 ^ e ∨ c / 2 ^ e < d / 2 ^ e :=
    (lt_max_iff.1 (show e < max lx ly by omega)).imp (hdx e) (hdy e)
  have heq : logxorDeriveUnsignedBounds x y =
      some (minXor a b c d (max lx ly), lognot (minXor a b (lognot d) (lognot c) (max lx ly))) := by
    unfold minXor
    rw [lognot_lognot, logxorDeriveUnsignedBounds, ha, hb, hc, hd]
    rfl
  refine exactBounds_of heq hsound (results_of ha hb hc hd ?_) (results_of ha hb hc hd ?_)
  · exact minXor_attained hab hcd hex hey fun e he => hdiff he
  -- the second operand is complemented, and so is the result
  obtain ⟨m, n, hm, hn, hmn⟩ := minXor_attained hab (lognot_le hcd) hex (lognot_ediv_agree hey.symm)
    fun e he => (hdiff he).imp_right ediv_lognot_lt
  simp only [lognot_eq] at hn
  refine ⟨m, lognot n, hm, ?_, ?_⟩
  · rw [lognot_eq]
    omega
  · rw [← hmn, lognot_logxor]

end Exact

/-- The two values of each function, on natural numbers, are the least and the greatest result. -/
theorem unsigned_bounds_exact (x y : IntegerType) (hx : x.Unsigned) (hy : y.Unsigned) :
    ExactBounds logand x y (logandDeriveUnsignedBounds x y) ∧
    ExactBounds logior x y (logiorDeriveUnsignedBounds x y) ∧
      ExactBounds logxor x y (logxorDeriveUnsignedBounds x y) :=
  ⟨logandDeriveUnsignedBounds_exact hx hy, logiorDeriveUnsignedBounds_exact hx hy,
    logxorDeriveUnsignedBounds_exact hx hy⟩

theorem unsigned_bounds_exact_small :
    let x : IntegerType := ⟨some 5, some 9, by decide⟩
    let y : IntegerType := ⟨some 3, some 12, by decide⟩
    ExactBounds logand x y (logandDeriveUnsignedBounds x y) ∧
    ExactBounds logior x y (logiorDeriveUnsignedBounds x y) ∧
      ExactBounds logxor x y (logxorDeriveUnsignedBounds x y) :=
  unsigned_bounds_exact ⟨some 5, some 9, by decide⟩ ⟨some 3, some 12, by decide⟩ ⟨5, 9, rfl,
    rfl, by decide⟩ ⟨3, 12, rfl, rfl, by decide⟩

example : logxorDeriveUnsignedBounds ⟨some 5, some 6, by decide⟩ ⟨some 8, some 9, by decide⟩ =
    some (12, 15) := by
  decide +kernel

end Sbcl.Compiler
