import Sbcl.Compiler.BitopsDeriveType

/-!
# Derived types of the bit operations: correctness

* `minAnd_cases` : the bits of the lower bound of `logand`;
* `minAnd_le`, `minOr_le` : the two lower bounds that all six unsigned bounds are made of, for
  operands that keep their high part;
* `logandDeriveUnsignedBounds_spec`, `logior…`, `logxor…` : the unsigned bounds contain the results;
* `Sound` : a derived type has every result, and its calls of the unsigned bounds are on unsigned
  types;
* `bitops_derive_type_sound` : the three derived types.
-/

namespace Sbcl.Compiler

open IntBits Option Int Bool
open IntegerType (eq_of_singleton le_high low_le make_eq)

theorem zeroes_ofNat (k : ℕ) : zeroes k = -(2 ^ k) := by
  rw [zeroes, ash_ofNat]
  ring

theorem zeroes_neg_one : zeroes (-1) = -1 := by
  rw [zeroes, ash_neg_one]
  rfl

theorem lognot_eq (a : ℤ) : lognot a = -a - 1 := lnot_eq a

@[simp] theorem lognot_lognot (a : ℤ) : lognot (lognot a) = a := by
  rw [lognot_eq, lognot_eq]
  ring

theorem ones_eq (n : ℤ) : ones n = lognot (zeroes n) := rfl

@[simp] theorem testBit_lognot (a : ℤ) (i : ℕ) : (lognot a).testBit i = !a.testBit i :=
  testBit_lnot a i

@[simp] theorem testBit_logand (a b : ℤ) (i : ℕ) :
    (logand a b).testBit i = (a.testBit i && b.testBit i) :=
  testBit_land a b i

@[simp] theorem testBit_logior (a b : ℤ) (i : ℕ) :
    (logior a b).testBit i = (a.testBit i || b.testBit i) :=
  testBit_lor a b i

@[simp] theorem testBit_zeroes (k i : ℕ) : (zeroes k).testBit i = decide (k ≤ i) := by
  rw [zeroes_ofNat, testBit_neg_pow]

@[simp] theorem testBit_ones (k i : ℕ) : (ones k).testBit i = decide (i < k) := by
  rw [ones_eq, testBit_lognot, testBit_zeroes]
  by_cases h : i < k
  · simp [h]
  · simp [h, Nat.not_lt.1 h]

theorem zeroes_neg (k : ℕ) : zeroes k < 0 := by
  rw [zeroes_ofNat]
  exact neg_neg_of_pos (by positivity)

theorem ones_nonneg (k : ℕ) : 0 ≤ ones k := by
  have := zeroes_neg k
  rw [ones_eq, lognot_eq]
  omega

/-! ## The two lower bounds -/

section Bounds

variable {a b c d x y : ℤ}

theorem ediv_eq_of_between (hs : a < 0 ↔ b < 0) (hax : a ≤ x) (hxb : x ≤ b) :
    a / 2 ^ integerLength (logxor a b) = x / 2 ^ integerLength (logxor a b) := by
  set k := integerLength (logxor a b) with hk
  have hpos : (0 : ℤ) < 2 ^ k := by positivity
  have h0 : 0 ≤ logxor a b := by
    have := lxor_neg_iff a b
    unfold logxor
    omega
  have hz : Int.xor (a / 2 ^ k) (b / 2 ^ k) = 0 := by
    rw [← lxor_ediv]
    exact ediv_eq_zero_of_lt h0 (lt_pow_integerLength h0)
  have hab : a / 2 ^ k = b / 2 ^ k := by
    refine eq_of_testBit_eq fun i => ?_
    have := congrArg (fun n => n.testBit i) hz
    simpa [testBit_zero] using this
  have h1 := Int.ediv_le_ediv hpos hax
  have h2 := Int.ediv_le_ediv hpos hxb
  omega

/-- The lower bound of `logand` for operands from `a` and `c` on that change below `L` only. -/
def minAnd (a c : ℤ) (L : ℕ) : ℤ :=
  let index : ℤ := integerLength (logior (logior (zeroes L) a) c)
  logand (logand a c) (zeroes (index - 1))

/-- The lower bound of `logior` for operands from `a` and `c` on that change below `lx` and `ly`
only. -/
def minOr (a c : ℤ) (lx ly : ℕ) : ℤ :=
  let indexX : ℤ := integerLength (logand (logand (ones lx) (lognot a)) c)
  let indexY : ℤ := integerLength (logand (logand (ones ly) (lognot c)) a)
  if indexX = indexY then logior a c
  else if indexX > indexY then logior (logand a (zeroes (indexX - 1))) c
  else logior (logand c (zeroes (indexY - 1))) a

/-- The lower bound of `logand`: the common bits, but only above the last bit below `L` that neither
operand has. -/
theorem minAnd_cases (a c : ℤ) (L : ℕ) :
    (minAnd a c L = logand a c ∧ ∀ i < L, a.testBit i = false → c.testBit i = true) ∨
      ∃ k < L, a.testBit k = false ∧ c.testBit k = false ∧
        (∀ i, k < i → i < L → a.testBit i = false → c.testBit i = true) ∧
        ∀ i, (minAnd a c L).testBit i = (decide (k < i) && a.testBit i && c.testBit i) := by
  unfold minAnd
  dsimp only
  set n := logior (logior (zeroes L) a) c with hn
  have hneg : n < 0 := (lor_neg_iff _ _).2 (Or.inl ((lor_neg_iff _ _).2 (Or.inl (zeroes_neg L))))
  have hbits (i : ℕ) : n.testBit i = (decide (L ≤ i) || a.testBit i || c.testBit i) := by simp [hn]
  clear_value n
  have hone (i : ℕ) (hi : integerLength n ≤ i) (hL : i < L) (ha : a.testBit i = false) :
      c.testBit i = true := by
    have := testBit_of_integerLength_le hi
    simpa [hbits, hneg, Nat.not_le.2 hL, ha] using this
  cases hk : integerLength n with
  | zero =>
    refine Or.inl ⟨?_, fun i => hone i (by omega)⟩
    rw [show ((0 : ℕ) : ℤ) - 1 = -1 by rfl, zeroes_neg_one, logand, land_comm, neg_one_land]
  | succ k =>
    have hbit : n.testBit k = false := by
      rw [testBit_of_integerLength_eq hk, decide_eq_true hneg]
      rfl
    rw [hbits, Bool.or_eq_false_iff, Bool.or_eq_false_iff, decide_eq_false_iff_not, not_le] at hbit
    obtain ⟨⟨hL, ha⟩, hc⟩ := hbit
    refine Or.inr ⟨k, hL, ha, hc, fun i hi => hone i (by omega), fun i => ?_⟩
    rw [show ((k + 1 : ℕ) : ℤ) - 1 = k by push_cast; ring, testBit_logand,
      testBit_logand, testBit_zeroes]
    rcases Nat.lt_trichotomy i k with hi | rfl | hi
    · simp [Nat.not_le.2 hi, hi.not_gt]
    · simp [ha]
    · simp [hi, hi.le]

/-- The last bit below `L` that neither operand has is the last one that larger operands could bring
in without having lost another one above it. -/
theorem minAnd_le {L : ℕ} (hax : a ≤ x) (hcy : c ≤ y) (hx : a / 2 ^ L = x / 2 ^ L)
    (hy : c / 2 ^ L = y / 2 ^ L) : minAnd a c L ≤ logand x y := by
  have hor {i : ℕ} (h : a.testBit i = false → c.testBit i = true) :
      (a.testBit i || c.testBit i) = true := by
    cases hi : a.testBit i with
    | true => rfl
    | false => exact h hi
  rcases minAnd_cases a c L with ⟨heq, hone⟩ | ⟨k, -, -, -, hone, hbits⟩
  · have hmono := @land_ediv_mono L 0 a x c y hax hcy hx hy fun i _ hi => hor (hone i hi)
    rw [pow_zero, ediv_one, ediv_one] at hmono
    exact heq.trans_le hmono
  · have hmono := @land_ediv_mono L (k + 1) a x c y hax hcy hx hy fun i hk hi => hor (hone i hk hi)
    have hpos : (0 : ℤ) < 2 ^ (k + 1) := by positivity
    have heq : minAnd a c L = Int.land a c / 2 ^ (k + 1) * 2 ^ (k + 1) := by
      refine eq_of_testBit_eq fun i => ?_
      rw [hbits, testBit_mul, testBit_ediv, testBit_land]
      rcases Nat.lt_or_ge k i with hi | hi
      · simp [hi, show k + 1 ≤ i by omega]
      · simp [hi.not_gt, show ¬k + 1 ≤ i by omega]
    calc minAnd a c L = Int.land a c / 2 ^ (k + 1) * 2 ^ (k + 1) := heq
      _ ≤ Int.land x y / 2 ^ (k + 1) * 2 ^ (k + 1) := by gcongr
      _ ≤ logand x y := Int.ediv_mul_le _ hpos.ne'

theorem testBit_index (l : ℕ) (a c : ℤ) (i : ℕ) :
    (logand (logand (ones l) (lognot a)) c).testBit i =
      (decide (i < l) && !a.testBit i && c.testBit i) := by
  simp

theorem index_nonneg (l : ℕ) (a c : ℤ) : ¬logand (logand (ones l) (lognot a)) c < 0 := by
  have := ones_nonneg l
  intro h
  have := (land_neg_iff _ _).1 ((land_neg_iff _ _).1 h).1
  omega

theorem testBit_of_index_le {l : ℕ} {i : ℕ}
    (hi : integerLength (logand (logand (ones l) (lognot a)) c) ≤ i)
    (hl : i < l) (hc : c.testBit i = true) : a.testBit i = true := by
  have := testBit_of_integerLength_le hi
  rw [testBit_index, decide_eq_false (index_nonneg l a c)] at this
  simpa [hl, hc] using this

theorem minOr_clear_le {lx ly k : ℕ} (hax : a ≤ x) (hcy : c ≤ y) (hx : a / 2 ^ lx = x / 2 ^ lx)
    (hy : c / 2 ^ ly = y / 2 ^ ly)
    (hk : integerLength (logand (logand (ones lx) (lognot a)) c) = k + 1)
    (hle : integerLength (logand (logand (ones ly) (lognot c)) a) ≤ k + 1) :
    logior (logand a (zeroes k)) c ≤ logior x y := by
  have hak : a.testBit k = false := by
    have := testBit_of_integerLength_eq hk
    rw [testBit_index, decide_eq_false (index_nonneg lx a c)] at this
    simp_all
  have hhigh : logior (logand a (zeroes k)) c / 2 ^ (k + 1) = Int.lor a c / 2 ^ (k + 1) := by
    refine eq_of_testBit_eq fun i => ?_
    simp [testBit_ediv, show k ≤ i + (k + 1) by omega]
  have hlow : logior (logand a (zeroes k)) c % 2 ^ (k + 1) = c % 2 ^ (k + 1) := by
    refine eq_of_testBit_eq fun i => ?_
    rw [testBit_emod, testBit_emod, testBit_logior, testBit_logand, testBit_zeroes]
    rcases Nat.lt_trichotomy i k with hi | rfl | hi
    · simp [Nat.not_le.2 hi]
    · simp [hak]
    · simp [show ¬i < k + 1 by omega]
  rcases lor_ediv_mono hax hcy hx hy (fun i hi => testBit_of_index_le (hk ▸ hi))
    (fun i hi => testBit_of_index_le (hle.trans hi)) with hlt | ⟨hxa, hyc⟩
  · rw [← hhigh] at hlt
    by_contra hn
    have : Int.lor x y / 2 ^ (k + 1) ≤ logior (logand a (zeroes k)) c / 2 ^ (k + 1) :=
      Int.ediv_le_ediv (by positivity) (not_le.1 hn).le
    omega
  · refine le_of_emod_le (d := k + 1) ?_ ?_
    · rw [hlow]
      refine (emod_le_emod hcy hyc).trans ?_
      rw [logior, lor_emod]
      exact right_le_lor (Or.inl (emod_nonneg _ (by positivity)))
    · rw [hhigh, logior, lor_ediv, lor_ediv, hxa, hyc]

theorem logior_comm (a b : ℤ) : logior a b = logior b a := lor_comm a b

theorem minOr_le {lx ly : ℕ} (hax : a ≤ x) (hcy : c ≤ y) (hx : a / 2 ^ lx = x / 2 ^ lx)
    (hy : c / 2 ^ ly = y / 2 ^ ly) : minOr a c lx ly ≤ logior x y := by
  unfold minOr
  simp only
  split_ifs with heq hgt
  · -- both indexes are zero: a last bit of one would be a last bit of the other, and in it `a` has a zero and a one
    rw [Nat.cast_inj] at heq
    cases hk : integerLength (logand (logand (ones lx) (lognot a)) c) with
    | zero =>
      have := lor_ediv_mono (j := 0) hax hcy hx hy (fun i hi => testBit_of_index_le (by omega))
        (fun i hi => testBit_of_index_le (by omega))
      rw [pow_zero, ediv_one, ediv_one, ediv_one, ediv_one, ediv_one, ediv_one] at this
      rcases this with h | ⟨rfl, rfl⟩
      · exact h.le
      · exact le_rfl
    | succ k =>
      have h1 := testBit_of_integerLength_eq hk
      have h2 := testBit_of_integerLength_eq (heq.symm.trans hk)
      rw [testBit_index, decide_eq_false (index_nonneg lx a c)] at h1
      rw [testBit_index, decide_eq_false (index_nonneg ly c a)] at h2
      simp_all
  · obtain ⟨k, hk⟩ := Nat.exists_eq_add_of_lt (Nat.zero_lt_of_lt (Nat.cast_lt.1 hgt))
    rw [Nat.zero_add] at hk
    rw [hk, show ((k + 1 : ℕ) : ℤ) - 1 = k by push_cast; ring]
    exact minOr_clear_le hax hcy hx hy hk (by omega)
  · obtain ⟨k, hk⟩ :=
      Nat.exists_eq_add_of_lt (show 0 <
        integerLength (logand (logand (ones ly) (lognot c)) a) by omega)
    rw [Nat.zero_add] at hk
    rw [hk, show ((k + 1 : ℕ) : ℤ) - 1 = k by push_cast; ring, logior_comm x]
    exact minOr_clear_le hcy hax hy hx hk (by omega)

/-! ## Complements -/

theorem integerLength_lognot (n : ℤ) : integerLength (lognot n) = integerLength n := by
  cases n <;> rfl

theorem lognot_ediv (n : ℤ) (l : ℕ) : lognot n / 2 ^ l = lognot (n / 2 ^ l) :=
  eq_of_testBit_eq fun i => by simp [testBit_ediv]

theorem lognot_ediv_agree {l : ℕ} (h : a / 2 ^ l = x / 2 ^ l) :
    lognot a / 2 ^ l = lognot x / 2 ^ l := by
  rw [lognot_ediv, lognot_ediv, h]

theorem lognot_le {m n : ℤ} (h : m ≤ n) : lognot n ≤ lognot m := by
  rw [lognot_eq, lognot_eq]
  omega

theorem le_lognot {m n : ℤ} (h : m ≤ lognot n) : n ≤ lognot m := by
  rw [lognot_eq] at h ⊢
  omega

theorem testBit_ones' (n : ℤ) (i : ℕ) : (ones n).testBit i = !(zeroes n).testBit i := by
  rw [ones_eq, testBit_lognot]

theorem lognot_minOr (b d : ℤ) (lx ly : ℕ) :
    lognot (minOr (lognot b) (lognot d) lx ly) =
      (let indexX : ℤ := integerLength (logand (logand (ones lx) b) (lognot d))
       let indexY : ℤ := integerLength (logand (logand (ones ly) d) (lognot b))
       if indexX = indexY then logand b d
       else if indexX > indexY then logand (logior b (ones (indexX - 1))) d
       else logand (logior d (ones (indexY - 1))) b) := by
  unfold minOr
  rw [lognot_lognot, lognot_lognot]
  dsimp only
  split_ifs
  · exact eq_of_testBit_eq fun i => by simp
  · exact eq_of_testBit_eq fun i => by simp [testBit_ones']
  · exact eq_of_testBit_eq fun i => by simp [testBit_ones']

theorem lognot_minAnd (b d : ℤ) (L : ℕ) :
    lognot (minAnd (lognot b) (lognot d) L) =
      (let index : ℤ := integerLength (logand (logand (ones L) b) d)
       logior (logior b d) (ones (index - 1))) := by
  have hindex : logior (logior (zeroes L) (lognot b)) (lognot d) =
      lognot (logand (logand (ones L) b) d) :=
    eq_of_testBit_eq fun i => by
      simp only [testBit_logior, testBit_logand, testBit_lognot, testBit_ones',
        Bool.not_and, Bool.not_not]
  unfold minAnd
  rw [hindex, integerLength_lognot]
  exact eq_of_testBit_eq fun i => by simp [testBit_ones']

theorem zeroes_pred_neg (k : ℕ) : zeroes ((k : ℤ) - 1) < 0 := by
  cases k with
  | zero => exact lt_of_eq_of_lt zeroes_neg_one (by decide)
  | succ k =>
    rw [show ((k + 1 : ℕ) : ℤ) - 1 = k by push_cast; ring]
    exact zeroes_neg k

theorem minAnd_neg {L : ℕ} (ha : a < 0) (hc : c < 0) : minAnd a c L < 0 :=
  (land_neg_iff _ _).2 ⟨(land_neg_iff _ _).2 ⟨ha, hc⟩, zeroes_pred_neg _⟩

theorem minAnd_nonneg {L : ℕ} (ha : 0 ≤ a) : 0 ≤ minAnd a c L := by
  by_contra hn
  have := ((land_neg_iff _ _).1 ((land_neg_iff _ _).1 (not_le.1 hn)).1).1
  omega

theorem lognot_neg {n : ℤ} (h : 0 ≤ n) : lognot n < 0 := by
  rw [lognot_eq]
  omega

theorem logand_eq_lognot (x y : ℤ) : logand x y = lognot (logior (lognot x) (lognot y)) :=
  eq_of_testBit_eq fun i => by simp

theorem logior_eq_lognot (x y : ℤ) : logior x y = lognot (logand (lognot x) (lognot y)) :=
  eq_of_testBit_eq fun i => by simp

theorem logior_le_add {m n : ℤ} (h : 0 ≤ m) : logior m n ≤ m + n := by
  have h1 := land_add_lor m n
  have h2 := land_neg_iff m n
  unfold logior
  omega

theorem logxor_eq_add (x y : ℤ) : logxor x y = logand x (lognot y) + logand (lognot x) y := by
  have h := land_add_lor (logand x (lognot y)) (logand (lognot x) y)
  have hand : Int.land (logand x (lognot y)) (logand (lognot x) y) = 0 :=
    eq_of_testBit_eq fun i => by simp [testBit_zero]; tauto
  have hor : Int.lor (logand x (lognot y)) (logand (lognot x) y) = logxor x y :=
    eq_of_testBit_eq fun i => by simp [logxor]; cases x.testBit i <;> cases y.testBit i <;> rfl
  omega

theorem lognot_logxor (x y : ℤ) : lognot (logxor x y) = logxor x (lognot y) :=
  eq_of_testBit_eq fun i => by simp [logxor]

end Bounds

/-! ## The unsigned bounds -/

/-- Both bounds are there and natural numbers. -/
def IntegerType.Unsigned (t : IntegerType) : Prop := ∃ l h, t.low = some l ∧ t.high = some h ∧ 0 ≤ l

/-- The upper bound is there and a natural number; the lower one, where it is not, is replaced by
zero. -/
def IntegerType.UnsignedHigh (t : IntegerType) : Prop := ∃ h, t.high = some h ∧ 0 ≤ h

section Unsigned

variable {x y : IntegerType}

theorem ediv_agree_low {a b n : ℤ} (ha : 0 ≤ a) (han : a ≤ n) (hnb : n ≤ b) :
    a / 2 ^ integerLength (logxor a b) = n / 2 ^ integerLength (logxor a b) :=
  ediv_eq_of_between (by omega) han hnb

theorem ediv_agree_high {a b n : ℤ} (ha : 0 ≤ a) (han : a ≤ n) (hnb : n ≤ b) :
    lognot b / 2 ^ integerLength (logxor a b) = lognot n / 2 ^ integerLength (logxor a b) := by
  refine lognot_ediv_agree ?_
  have h1 := ediv_agree_low ha han hnb
  have h2 := ediv_agree_low ha (han.trans hnb) le_rfl
  rw [← h1, h2]

theorem logandDeriveUnsignedBounds_spec (hx : x.Unsigned) (hy : y.Unsigned) :
    ∃ low high, logandDeriveUnsignedBounds x y = some (low, high) ∧
      ∀ m ∈ x, ∀ n ∈ y, low ≤ logand m n ∧ logand m n ≤ high := by
  obtain ⟨a, b, ha, hb, ha0⟩ := hx
  obtain ⟨c, d, hc, hd, hc0⟩ := hy
  set lx := integerLength (logxor a b) with hlx
  set ly := integerLength (logxor c d) with hly
  refine ⟨minAnd a c (max lx ly), lognot (minOr (lognot b) (lognot d) lx ly), ?_,
    fun m hm n hn => ⟨?_, ?_⟩⟩
  · rw [lognot_minOr, logandDeriveUnsignedBounds, ha, hb, hc, hd]
    rfl
  all_goals
    have ham := low_le hm ha
    have hmb := le_high hm hb
    have hcn := low_le hn hc
    have hnd := le_high hn hd
  · exact minAnd_le ham hcn (ediv_agree_mono (ediv_agree_low ha0 ham hmb) (le_max_left _ _))
      (ediv_agree_mono (ediv_agree_low hc0 hcn hnd) (le_max_right _ _))
  · rw [logand_eq_lognot]
    exact lognot_le (minOr_le (lognot_le hmb) (lognot_le hnd) (ediv_agree_high ha0 ham hmb)
      (ediv_agree_high hc0 hcn hnd))

theorem logiorDeriveUnsignedBounds_spec (hx : x.UnsignedHigh) (hy : y.UnsignedHigh) :
    ∃ low high, logiorDeriveUnsignedBounds x y = some (low, high) ∧ 0 ≤ high ∧
      ∀ m ∈ x, ∀ n ∈ y, 0 ≤ m → 0 ≤ n → low ≤ logior m n ∧ logior m n ≤ high := by
  obtain ⟨b, hb, hb0⟩ := hx
  obtain ⟨d, hd, hd0⟩ := hy
  set a := max (x.low.getD 0) 0 with ha
  set c := max (y.low.getD 0) 0 with hc
  set lx := integerLength (logxor a b) with hlx
  set ly := integerLength (logxor c d) with hly
  have hlow {t : IntegerType} {m : ℤ} (hm : m ∈ t) (hm0 : 0 ≤ m) : max (t.low.getD 0) 0 ≤ m := by
    refine max_le ?_ hm0
    cases ht : t.low with
    | none => exact hm0
    | some l => exact low_le hm ht
  refine ⟨minOr a c lx ly, lognot (minAnd (lognot b) (lognot d) (max lx ly)), ?_, ?_,
    fun m hm n hn hm0 hn0 => ⟨?_, ?_⟩⟩
  · rw [lognot_minAnd, logiorDeriveUnsignedBounds, hb, hd]
    rfl
  · have := minAnd_neg (L := max lx ly) (lognot_neg hb0) (lognot_neg hd0)
    rw [lognot_eq]
    omega
  all_goals
    have ham : a ≤ m := hlow hm hm0
    have hmb := le_high hm hb
    have hcn : c ≤ n := hlow hn hn0
    have hnd := le_high hn hd
    have ha0 : 0 ≤ a := le_max_right _ _
    have hc0 : 0 ≤ c := le_max_right _ _
  · exact minOr_le ham hcn (ediv_agree_low ha0 ham hmb) (ediv_agree_low hc0 hcn hnd)
  rw [logior_eq_lognot]
  exact lognot_le (minAnd_le (lognot_le hmb) (lognot_le hnd)
    (ediv_agree_mono (ediv_agree_high ha0 ham hmb) (le_max_left _ _))
    (ediv_agree_mono (ediv_agree_high hc0 hcn hnd) (le_max_right _ _)))

theorem logxorDeriveUnsignedBounds_spec (hx : x.Unsigned) (hy : y.Unsigned) :
    ∃ low high, logxorDeriveUnsignedBounds x y = some (low, high) ∧
      ∀ m ∈ x, ∀ n ∈ y, low ≤ logxor m n ∧ logxor m n ≤ high := by
  obtain ⟨a, b, ha, hb, ha0⟩ := hx
  obtain ⟨c, d, hc, hd, hc0⟩ := hy
  set lx := integerLength (logxor a b) with hlx
  set ly := integerLength (logxor c d) with hly
  set L := max lx ly with hL
  refine ⟨logior (minAnd a (lognot d) L) (minAnd (lognot b) c L),
    lognor (minAnd a c L) (minAnd (lognot b) (lognot d) L), ?_, fun m hm n hn => ?_⟩
  · rw [logxorDeriveUnsignedBounds, ha, hb, hc, hd]
    rfl
  have ham := low_le hm ha
  have hmb := le_high hm hb
  have hcn := low_le hn hc
  have hnd := le_high hn hd
  have ga := ediv_agree_mono (ediv_agree_low ha0 ham hmb) (le_max_left lx ly)
  have gb := ediv_agree_mono (ediv_agree_high ha0 ham hmb) (le_max_left lx ly)
  have gc := ediv_agree_mono (ediv_agree_low hc0 hcn hnd) (le_max_right lx ly)
  have gd := ediv_agree_mono (ediv_agree_high hc0 hcn hnd) (le_max_right lx ly)
  have hnonneg (e : ℤ) : 0 ≤ minAnd a e L := minAnd_nonneg ha0
  constructor
  · rw [logxor_eq_add]
    exact (logior_le_add (hnonneg _)).trans
      (Int.add_le_add (minAnd_le ham (lognot_le hnd) ga gd) (minAnd_le (lognot_le hmb) hcn gb gc))
  refine le_lognot ?_
  rw [lognot_logxor, logxor_eq_add, lognot_lognot]
  exact (logior_le_add (hnonneg _)).trans
    (Int.add_le_add (minAnd_le ham hcn ga gc) (minAnd_le (lognot_le hmb) (lognot_le hnd) gb gd))

end Unsigned

/-! ## Derived types -/

/-- The results are in the derived type, and each call of the unsigned bounds meets their
assumption. -/
def Sound (Ok : IntegerType → Prop) (R : ℤ → Prop) (d : Option Derived) : Prop :=
  ∃ r, d = some r ∧ (∀ c ∈ r.calls, Ok c.1 ∧ Ok c.2) ∧ ∀ n, R n → r.type.Mem n

section Sound

variable {Ok : IntegerType → Prop} {R : ℤ → Prop}

theorem Sound.derived {t : Ctype} (h : ∀ n, R n → t.Mem n) : Sound Ok R (derived t) :=
  ⟨⟨t, []⟩, rfl, by simp, h⟩

theorem Sound.integer {low high : Option ℤ}
    (h : ∀ n, R n → (∀ l ∈ low, l ≤ n) ∧ ∀ h ∈ high, n ≤ h) :
    Sound Ok R (Compiler.derived (specifierInteger low high)) :=
  Sound.derived fun n hn => mem_specifierInteger (h n hn).1 (h n hn).2

theorem Sound.withBounds {bounds : IntegerType → IntegerType → Option (ℤ × ℤ)} {x y : IntegerType}
    {k : ℤ → ℤ → Ctype} (hx : Ok x) (hy : Ok y)
    (h : ∃ low high, bounds x y = some (low, high) ∧ ∀ n, R n → (k low high).Mem n) :
    Sound Ok R (withBounds bounds x y k) := by
  obtain ⟨low, high, hb, hk⟩ := h
  refine ⟨⟨k low high, [(x, y)]⟩, by rw [Compiler.withBounds, hb]; rfl, ?_, hk⟩
  simp [hx, hy]

end Sound

section TypeLength

variable {x : IntegerType} {n : ℤ}

theorem low_of_not_neg (h : (integerTypeLength x).neg = false) : ∃ l, x.low = some l ∧ 0 ≤ l := by
  cases hl : x.low with
  | none => simp [integerTypeLength, hl] at h
  | some l => exact ⟨l, rfl, by simpa [integerTypeLength, hl] using h⟩

theorem high_of_not_pos (h : (integerTypeLength x).pos = false) : ∃ u, x.high = some u ∧ u < 0 := by
  cases hu : x.high with
  | none => simp [integerTypeLength, hu] at h
  | some u => exact ⟨u, rfl, by simpa [integerTypeLength, hu] using h⟩

theorem nonneg_of_not_neg (h : (integerTypeLength x).neg = false) (hn : n ∈ x) : 0 ≤ n := by
  obtain ⟨l, hl, h0⟩ := low_of_not_neg h
  exact h0.trans (low_le hn hl)

theorem neg_of_not_pos (h : (integerTypeLength x).pos = false) (hn : n ∈ x) : n < 0 := by
  obtain ⟨u, hu, h0⟩ := high_of_not_pos h
  exact (le_high hn hu).trans_lt h0

theorem bounds_of_len {k : ℕ} (h : (integerTypeLength x).len = some k) :
    ∃ l u, x.low = some l ∧ x.high = some u ∧ Fits k l ∧ Fits k u := by
  cases hl : x.low with
  | none => simp [integerTypeLength, hl] at h
  | some l =>
    cases hu : x.high with
    | none => simp [integerTypeLength, hl, hu] at h
    | some u =>
      simp only [integerTypeLength, hl, hu, Option.some.injEq] at h
      exact ⟨l, u, rfl, rfl, (fits_integerLength l).mono (h ▸ le_max_left _ _),
        (fits_integerLength u).mono (h ▸ le_max_right _ _)⟩

theorem fits_of_len {k : ℕ} (h : (integerTypeLength x).len = some k) (hn : n ∈ x) : Fits k n := by
  obtain ⟨l, u, hl, hu, hfl, hfu⟩ := bounds_of_len h
  exact ⟨hfl.1.trans (low_le hn hl), (le_high hn hu).trans_lt hfu.2⟩

theorem unsigned_of_len {k : ℕ} (hneg : (integerTypeLength x).neg = false)
    (h : (integerTypeLength x).len = some k) : x.Unsigned := by
  obtain ⟨l, u, hl, hu, -⟩ := bounds_of_len h
  obtain ⟨l', hl', h0⟩ := low_of_not_neg hneg
  rw [hl] at hl'
  cases hl'
  exact ⟨l, u, hl, hu, h0⟩

end TypeLength

/-- The results of an operation on members of two types. -/
def Results (op : ℤ → ℤ → ℤ) (x y : IntegerType) (n : ℤ) : Prop := ∃ a ∈ x, ∃ b ∈ y, n = op a b

variable {k : ℕ}

theorem ldb_of_neg {n : ℤ} (hf : Fits k n) (h : n < 0) : ldb k 0 n = n + 2 ^ k := by
  rw [ldb, show (-((0 : ℕ) : ℤ)) = -((0 : ℕ) : ℤ) from rfl, ash_neg, pow_zero, ediv_one]
  have h1 := hf.1
  rw [← add_emod_right, emod_eq_of_lt (by omega) (by omega)]

variable {a b : ℤ}

theorem logand_low_bits (hf : Fits k a) (ha : 0 ≤ a) : logand a b = logand a (b % 2 ^ k) := by
  refine eq_of_testBit_eq fun i => ?_
  rw [testBit_logand, testBit_logand, testBit_emod]
  by_cases hi : i < k
  · simp [hi]
  have hz : a.testBit i = false := by
    have := testBit_of_integerLength_le (((integerLength_le_iff ha k).2 hf.2).trans (not_lt.1 hi))
    rw [this]
    exact decide_eq_false (not_lt.2 ha)
  simp [hz]

variable {x y : IntegerType}

theorem Results.comm {op : ℤ → ℤ → ℤ} (hop : ∀ a b, op a b = op b a) {n : ℤ}
    (h : Results op x y n) : Results op y x n := by
  obtain ⟨a, ha, b, hb, rfl⟩ := h
  exact ⟨b, hb, a, ha, hop a b⟩

theorem Sound.mono {Ok : IntegerType → Prop} {R S : ℤ → Prop} {d : Option Derived}
    (h : Sound Ok R d) (hRS : ∀ n, S n → R n) : Sound Ok S d := by
  obtain ⟨r, hr, hok, hmem⟩ := h
  exact ⟨r, hr, hok, fun n hn => hmem n (hRS n hn)⟩

/-! ## `logand` -/

theorem logand_comm (a b : ℤ) : logand a b = logand b a := land_comm a b

theorem logand_nonneg (h : 0 ≤ a) : 0 ≤ logand a b := by
  by_contra hn
  have := ((land_neg_iff a b).1 (not_le.1 hn)).1
  omega

theorem neg_pow_le_logand {m : ℤ} (ha : m ≤ a) (hb : m ≤ b) :
    -(2 ^ integerLength m) ≤ logand a b := by
  have hm := (fits_integerLength m).1
  have hpos : (0 : ℤ) < 2 ^ integerLength m := by positivity
  by_contra hn
  obtain ⟨ha0, hb0⟩ := (land_neg_iff a b).1 (by unfold logand at hn; omega)
  have hfa : Fits (integerLength m) a := ⟨by omega, by omega⟩
  have hfb : Fits (integerLength m) b := ⟨by omega, by omega⟩
  exact hn (hfa.land hfb).1

theorem logandMixed_rest (hx : (integerTypeLength x).neg = false) :
    Sound IntegerType.Unsigned (Results logand x y) (match (integerTypeLength x).high with
      | some xHigh => derived (specifierInteger (some 0) (some xHigh))
      | none => derived (specifierInteger (some 0) none)) := by
  have hres (n : ℤ) (hn : Results logand x y n) : 0 ≤ n ∧ ∀ h ∈ x.high, n ≤ h := by
    obtain ⟨a, ha, b, -, rfl⟩ := hn
    have ha0 := nonneg_of_not_neg hx ha
    exact ⟨logand_nonneg ha0, fun h hh => (land_le_left (Or.inl ha0)).trans (le_high ha hh)⟩
  split
  · rename_i xHigh hh
    exact Sound.integer fun n hn =>
      ⟨by simpa using (hres n hn).1, by simpa using (hres n hn).2 xHigh hh⟩
  · exact Sound.integer fun n hn => ⟨by simpa using (hres n hn).1, by simp⟩

theorem logandMixed_sound (hx : (integerTypeLength x).neg = false) :
    Sound IntegerType.Unsigned (Results logand x y)
      (logandDeriveTypeAux.logandMixed x (integerTypeLength x) (integerTypeLength y)) := by
  have hrest := logandMixed_rest (y := y) hx
  unfold logandDeriveTypeAux.logandMixed
  dsimp only
  split
  · rename_i xLen yLen yLow yHigh hxl hyl hlow hhigh
    split_ifs with hneg
    · -- `logand` sees the low bits of the negative operand only
      have hlow' : y.low = some yLow := hlow
      have hhigh' : y.high = some yHigh := hhigh
      have hldb {n : ℤ} (hn : n ∈ y) : ldb (max xLen yLen) 0 n = n + 2 ^ max xLen yLen :=
        ldb_of_neg ((fits_of_len hyl hn).mono (le_max_right _ _))
          ((le_high hn hhigh').trans_lt hneg)
      have hle : yLow ≤ yHigh := y.valid yLow hlow' yHigh hhigh'
      have hyLow : yLow ∈ y := ⟨by simp [hlow'], by simpa [hhigh'] using hle⟩
      have hyHigh : yHigh ∈ y := ⟨by simpa [hlow'] using hle, by simp [hhigh']⟩
      have hbits : 0 ≤ ldb (max xLen yLen) 0 yLow := emod_nonneg _ (by positivity)
      have hvalid : ∀ l ∈ some (ldb (max xLen yLen) 0 yLow),
          ∀ h ∈ some (ldb (max xLen yLen) 0 yHigh), l ≤ h := by
        simp only [mem_some_iff, forall_eq', hldb hyLow, hldb hyHigh]
        omega
      have hu : IntegerType.Unsigned ⟨_, _, hvalid⟩ := ⟨_, _, rfl, rfl, hbits⟩
      simp only [make_eq hvalid, bind_eq_bind, bind_some]
      refine Sound.withBounds (unsigned_of_len hx hxl) hu ?_
      obtain ⟨low, high, hb, hmem⟩ := logandDeriveUnsignedBounds_spec (unsigned_of_len hx hxl) hu
      refine ⟨low, high, hb, fun n hn => ?_⟩
      obtain ⟨a, ha, b, hbY, rfl⟩ := hn
      have hb' : b % 2 ^ max xLen yLen = b + 2 ^ max xLen yLen := by
        rw [← hldb hbY, ldb, show (-((0 : ℕ) : ℤ)) = -((0 : ℕ) : ℤ) from rfl, ash_neg,
          pow_zero, ediv_one]
      have := hmem a ha (b % 2 ^ max xLen yLen) ⟨by
          simp only [mem_some_iff, forall_eq', hldb hyLow, hb']
          have := low_le hbY hlow'
          omega, by
          simp only [mem_some_iff, forall_eq', hldb hyHigh, hb']
          have := le_high hbY hhigh'
          omega⟩
      rw [← logand_low_bits ((fits_of_len hxl ha).mono (le_max_left _ _)) (nonneg_of_not_neg hx ha)]
        at this
      exact mem_specifierInteger (by simpa using this.1) (by simpa using this.2)
    · exact hrest
  · exact hrest

theorem logandDeriveTypeAux_sound (x y : IntegerType) :
    Sound IntegerType.Unsigned (Results logand x y) (logandDeriveTypeAux x y false) := by
  unfold logandDeriveTypeAux
  rw [if_neg Bool.false_ne_true]
  split_ifs with hx1 hy1
  · -- `minus-one`
    refine Sound.derived fun n hn => ?_
    obtain ⟨a, ha, b, hb, rfl⟩ := hn
    rw [eq_of_singleton hx1 ha, logand, neg_one_land]
    exact ⟨y, List.mem_singleton_self y, hb⟩
  · refine Sound.derived fun n hn => ?_
    obtain ⟨a, ha, b, hb, rfl⟩ := hn
    rw [eq_of_singleton hy1 hb, logand_comm, logand, neg_one_land]
    exact ⟨x, List.mem_singleton_self x, ha⟩
  dsimp only
  cases hx : (integerTypeLength x).neg with
  | false =>
    cases hy : (integerTypeLength y).neg with
    | false =>
      have hres (n : ℤ) (hn : Results logand x y n) : 0 ≤ n := by
        obtain ⟨a, ha, b, -, rfl⟩ := hn
        exact logand_nonneg (nonneg_of_not_neg hx ha)
      rw [if_pos (by rfl), if_pos (by rfl)]
      split
      · exact Sound.integer fun n hn => ⟨by simpa using hres n hn, by simp⟩
      · rename_i yLen hxl hyl
        refine Sound.integer fun n hn => ⟨by simpa using hres n hn, ?_⟩
        obtain ⟨a, ha, b, hb, rfl⟩ := hn
        have h1 := land_le_right (a := a) (Or.inl (nonneg_of_not_neg hy hb))
        have h2 := (fits_of_len hyl hb).2
        simp only [mem_some_iff, forall_eq', logand]
        omega
      · rename_i xLen hxl hyl
        refine Sound.integer fun n hn => ⟨by simpa using hres n hn, ?_⟩
        obtain ⟨a, ha, b, hb, rfl⟩ := hn
        have h1 := land_le_left (b := b) (Or.inl (nonneg_of_not_neg hx ha))
        have h2 := (fits_of_len hxl ha).2
        simp only [mem_some_iff, forall_eq', logand]
        omega
      · rename_i xLen yLen hxl hyl
        have hux := unsigned_of_len hx hxl
        have huy := unsigned_of_len hy hyl
        obtain ⟨low, high, hb, hmem⟩ := logandDeriveUnsignedBounds_spec hux huy
        refine Sound.withBounds hux huy ⟨low, high, hb, fun n hn => ?_⟩
        obtain ⟨a, ha, b, hb, rfl⟩ := hn
        exact mem_specifierInteger (by simpa using (hmem a ha b hb).1)
          (by simpa using (hmem a ha b hb).2)
    | true =>
      rw [if_pos (by rfl), if_neg (by simp)]
      exact logandMixed_sound hx
  | true =>
    cases hy : (integerTypeLength y).neg with
    | false =>
      rw [if_neg (by simp), if_pos (by rfl)]
      exact (logandMixed_sound hy).mono fun n hn => hn.comm logand_comm
    | true =>
      rw [if_neg (by simp), if_neg (by simp)]
      have hhigh (n : ℤ) (hn : Results logand x y n) (xHigh yHigh : ℤ) (hxh : x.high = some xHigh)
          (hyh : y.high = some yHigh) : n ≤ max (max xHigh yHigh) (-1) := by
        obtain ⟨a, ha, b, hb, rfl⟩ := hn
        have h1 := le_high ha hxh
        have h2 := le_high hb hyh
        rcases lt_or_ge a 0 with h0 | h0
        · have := land_le_right (b := b) (Or.inr h0)
          unfold logand
          omega
        · have := land_le_left (b := b) (Or.inl h0)
          unfold logand
          omega
      split
      · rename_i xLow yLow hxl hyl
        refine Sound.integer fun n hn => ⟨?_, ?_⟩
        · obtain ⟨a, ha, b, hb, rfl⟩ := hn
          have h1 : xLow ≤ a := low_le ha hxl
          have h2 : yLow ≤ b := low_le hb hyl
          simp only [mem_some_iff, forall_eq', zeroes_ofNat]
          exact neg_pow_le_logand (by omega) (by omega)
        · split
          · rename_i xHigh yHigh hxh hyh
            simpa using hhigh n hn xHigh yHigh hxh hyh
          · simp
      · split
        · rename_i xHigh yHigh hxh hyh
          exact Sound.integer fun n hn => ⟨by simp, by simpa using hhigh n hn xHigh yHigh hxh hyh⟩
        split_ifs with hpos
        · rw [and_eq_true, not_eq_true', not_eq_true'] at hpos
          refine Sound.integer fun n hn => ⟨by simp, ?_⟩
          obtain ⟨a, ha, b, hb, rfl⟩ := hn
          have := (land_neg_iff a b).2 ⟨neg_of_not_pos hpos.2 ha, neg_of_not_pos hpos.1 hb⟩
          simp only [mem_some_iff, forall_eq', logand]
          omega
        · exact Sound.integer fun n hn => ⟨by simp, by simp⟩

/-! ## `logior` -/

theorem pos_iff (x : IntegerType) : (integerTypeLength x).pos = true ↔ ∀ u ∈ x.high, 0 ≤ u := by
  cases hu : x.high <;> simp [integerTypeLength, hu]

theorem unsignedHigh_of_high {u : ℤ} (hpos : (integerTypeLength x).pos = true)
    (hu : x.high = some u) : x.UnsignedHigh :=
  ⟨u, hu, (pos_iff x).1 hpos u hu⟩

theorem neg_pow_add_le_logior (ha : -(2 ^ k) ≤ a) (ha0 : a < 0) (hb0 : 0 ≤ b) (hb : b < 2 ^ k) :
    -(2 ^ k) + b ≤ logior a b := by
  have hpos : (0 : ℤ) < 2 ^ k := by positivity
  have hfa : a / 2 ^ k = -1 := by
    have := (fits_iff k a).1 ⟨ha, by omega⟩
    have : a / 2 ^ k < 0 := ediv_neg_of_neg_of_pos ha0 hpos
    omega
  have hhigh : logior a b / 2 ^ k = -1 := by rw [logior, lor_ediv, hfa, neg_one_lor]
  have hlow : b % 2 ^ k ≤ logior a b % 2 ^ k := by
    rw [logior, lor_emod]
    exact right_le_lor (Or.inl (emod_nonneg _ hpos.ne'))
  have := mul_ediv_add_emod (logior a b) (2 ^ k)
  rw [hhigh] at this
  rw [emod_eq_of_lt hb0 hb] at hlow
  omega

theorem logior_neg_pow (k : ℕ) (hb0 : 0 ≤ b) : logior (-(2 ^ k)) b ≤ -(2 ^ k) + b := by
  have h := land_add_lor (-(2 ^ k)) b
  have : 0 ≤ logand b (-(2 ^ k)) := logand_nonneg hb0
  rw [logand_comm] at this
  unfold logior
  unfold logand at this
  omega

theorem addOne_le {aLow bLow : ℤ} {bHigh : Option ℤ} (ha : aLow ≤ a) (ha0 : a < 0) (hb : bLow ≤ b)
    (hb0 : 0 < bLow) (hbh : ∀ h ∈ bHigh, b ≤ h) : addOne aLow bLow bHigh ≤ logior a b := by
  have hle : aLow ≤ logior a b := ha.trans (left_le_lor (Or.inr ha0))
  unfold addOne
  cases bHigh with
  | none => exact hle
  | some bHigh =>
    have hbh' : b ≤ bHigh := hbh bHigh rfl
    dsimp only
    split_ifs with h1 h2 h3
    · exact hle
    · obtain ⟨hexpt, hlt, hhigh⟩ := h2
      obtain rfl : b = bLow := by omega
      rw [hexpt] at ha ⊢
      exact (logior_neg_pow _ (by omega)).trans (neg_pow_add_le_logior ha ha0 (by omega) (by omega))
    · obtain ⟨hexpt, hlt, hhigh⟩ := h2
      have := neg_pow_add_le_logior (k :=
        integerLength aLow) (by omega) ha0 (show 0 ≤ b by omega) (by omega)
      omega
    · exact hle

theorem logiorMixed_sound {yLow : ℤ} (hyl : y.low = some yLow) (hy0 : 0 < yLow)
    (hxpos : (integerTypeLength x).pos = true) :
    Sound IntegerType.UnsignedHigh (Results logior x y)
      (logiorDeriveTypeAux.logiorMixed y (integerTypeLength x) (integerTypeLength y) yLow) := by
  have hneg (n a b : ℤ) (ha : a ∈ x) (hb : b ∈ y) (ha0 : a < 0) :
      (specifierInteger (x.low.map fun xLow => addOne xLow yLow y.high) (some (-1))).Mem
        (logior a b) := by
    refine mem_specifierInteger ?_ ?_
    · intro l hl
      obtain ⟨xLow, hxl, rfl⟩ := mem_map.1 hl
      exact addOne_le (low_le ha hxl) ha0 (low_le hb hyl) hy0 hb.2
    · have := (lor_neg_iff a b).2 (Or.inl ha0)
      simp only [mem_some_iff, forall_eq', logior]
      omega
  unfold logiorDeriveTypeAux.logiorMixed
  split
  · rename_i xHigh yLen hxh hyLen
    have hx0 : 0 ≤ xHigh := (pos_iff x).1 hxpos xHigh hxh
    have hvalid : ∀ l ∈ some (0 : ℤ), ∀ h ∈ some xHigh, l ≤ h := by simpa using hx0
    have hu : IntegerType.UnsignedHigh ⟨_, _, hvalid⟩ := ⟨xHigh, rfl, hx0⟩
    have huy : y.UnsignedHigh := by
      obtain ⟨l, u, hl, hu, -⟩ := bounds_of_len hyLen
      rw [hyl] at hl
      cases hl
      exact ⟨u, hu, hy0.le.trans (y.valid _ hyl u hu)⟩
    simp only [make_eq hvalid, bind_eq_bind, bind_some]
    refine Sound.withBounds hu huy ?_
    obtain ⟨low, high, hb, -, hmem⟩ := logiorDeriveUnsignedBounds_spec hu huy
    refine ⟨low, high, hb, fun n hn => ?_⟩
    obtain ⟨a, ha, b, hb, rfl⟩ := hn
    rcases lt_or_ge a 0 with h0 | h0
    · exact (hneg (logior a b) a b ha hb h0).append_left _
    · have hb0 : 0 ≤ b := hy0.le.trans (low_le hb hyl)
      have := hmem a ⟨by simpa using h0, by simpa using le_high ha hxh⟩ b hb h0 hb0
      exact (mem_specifierInteger (by simpa using this.1) (by simpa using this.2)).append_right _
  · refine Sound.derived fun n hn => ?_
    obtain ⟨a, ha, b, hb, rfl⟩ := hn
    rcases lt_or_ge a 0 with h0 | h0
    · exact (hneg (logior a b) a b ha hb h0).append_left _
    have := right_le_lor (b := b) (Or.inl h0)
    have := low_le hb hyl
    refine (mem_specifierInteger ?_ (by simp)).append_right _
    simp only [mem_some_iff, forall_eq', logior]
    omega

theorem positive_eq_some {low : Option ℤ} {l : ℤ} (h : logiorDeriveTypeAux.positive low = some l) :
    low = some l ∧ 0 < l := by
  unfold logiorDeriveTypeAux.positive at h
  simpa [filter_eq_some_iff] using h

theorem logiorDeriveTypeAux_sound (x y : IntegerType) :
    Sound IntegerType.UnsignedHigh (Results logior x y) (logiorDeriveTypeAux x y false) := by
  have hleft {a b : ℤ} (h : 0 ≤ b ∨ a < 0) : a ≤ logior a b := left_le_lor h
  have hright {a b : ℤ} (h : 0 ≤ a ∨ b < 0) : b ≤ logior a b := right_le_lor h
  have hneg (a b : ℤ) : logior a b < 0 ↔ a < 0 ∨ b < 0 := lor_neg_iff a b
  unfold logiorDeriveTypeAux
  rw [if_neg Bool.false_ne_true]
  dsimp only
  split_ifs with hnn hxn hyn hyn
  · -- both are positive
    rw [and_eq_true, not_eq_true', not_eq_true'] at hnn
    obtain ⟨hx, hy⟩ := hnn
    split
    · rename_i xLen yLen hxl hyl
      obtain ⟨l, u, hl, hu, h0⟩ := unsigned_of_len hx hxl
      obtain ⟨l', u', hl', hu', h0'⟩ := unsigned_of_len hy hyl
      have hux : x.UnsignedHigh := ⟨u, hu, h0.trans (x.valid l hl u hu)⟩
      have huy : y.UnsignedHigh := ⟨u', hu', h0'.trans (y.valid l' hl' u' hu')⟩
      obtain ⟨low, high, hb, -, hmem⟩ := logiorDeriveUnsignedBounds_spec hux huy
      refine Sound.withBounds hux huy ⟨low, high, hb, fun n hn => ?_⟩
      obtain ⟨a, ha, b, hb, rfl⟩ := hn
      have := hmem a ha b hb (nonneg_of_not_neg hx ha) (nonneg_of_not_neg hy hb)
      exact mem_specifierInteger (by simpa using this.1) (by simpa using this.2)
    · obtain ⟨xLow, hxl, -⟩ := low_of_not_neg hx
      obtain ⟨yLow, hyl, -⟩ := low_of_not_neg hy
      rw [show (integerTypeLength x).low = some xLow from hxl, show (integerTypeLength y).low =
        some yLow from hyl]
      refine Sound.integer fun n hn => ⟨?_, by simp⟩
      obtain ⟨a, ha, b, hb, rfl⟩ := hn
      have h1 := hleft (a := a) (Or.inl (nonneg_of_not_neg hy hb))
      have h2 := hright (b := b) (Or.inl (nonneg_of_not_neg hx ha))
      have h3 := low_le ha hxl
      have h4 := low_le hb hyl
      simp only [mem_some_iff, forall_eq']
      omega
  · -- both are negative
    rw [not_eq_true'] at hxn hyn
    split
    · rename_i xLen yLen hxl hyl
      refine Sound.integer fun n hn => ?_
      obtain ⟨a, ha, b, hb, rfl⟩ := hn
      have ha0 := neg_of_not_pos hxn ha
      have hb0 := neg_of_not_pos hyn hb
      have h1 := hleft (b := b) (Or.inr ha0)
      have h2 := hright (a := a) (Or.inr hb0)
      have h3 := (fits_of_len hxl ha).1
      have h4 := (fits_of_len hyl hb).1
      have h5 := (hneg a b).2 (Or.inl ha0)
      simp only [mem_some_iff, forall_eq', ← Nat.cast_min, ash_ofNat]
      rcases Nat.le_total xLen yLen with h | h
      · rw [min_eq_left h]
        omega
      · rw [min_eq_right h]
        omega
    · refine Sound.integer fun n hn => ⟨by simp, ?_⟩
      obtain ⟨a, ha, b, hb, rfl⟩ := hn
      have := (hneg a b).2 (Or.inl (neg_of_not_pos hxn ha))
      simp only [mem_some_iff, forall_eq']
      omega
  · -- `x` is negative
    rw [not_eq_true'] at hxn
    refine Sound.integer fun n hn => ?_
    obtain ⟨a, ha, b, hb, rfl⟩ := hn
    have ha0 := neg_of_not_pos hxn ha
    have h5 := (hneg a b).2 (Or.inl ha0)
    refine ⟨fun l hl => (low_le ha hl).trans (hleft (Or.inr ha0)), ?_⟩
    simp only [mem_some_iff, forall_eq']
    omega
  · -- `y` is negative
    rw [not_eq_true'] at hyn
    refine Sound.integer fun n hn => ?_
    obtain ⟨a, ha, b, hb, rfl⟩ := hn
    have hb0 := neg_of_not_pos hyn hb
    have h5 := (hneg a b).2 (Or.inr hb0)
    refine ⟨fun l hl => (low_le hb hl).trans (hright (Or.inr hb0)), ?_⟩
    simp only [mem_some_iff, forall_eq']
    omega
  · rw [not_eq_true', not_eq_false] at hxn hyn
    split
    · rename_i yLow _ hyl
      obtain ⟨hyl, hy0⟩ := positive_eq_some hyl
      exact logiorMixed_sound hyl hy0 hxn
    · rename_i xLow _ hxl
      obtain ⟨hxl, hx0⟩ := positive_eq_some hxl
      exact (logiorMixed_sound hxl hx0 hyn).mono fun n hn => hn.comm logior_comm
    -- the upper bound that the natural numbers of both have holds for the negative results too
    have hhigh {xHigh yHigh : ℤ} (hxh : x.high = some xHigh) (hyh : y.high = some yHigh) :
        ∃ low high, logiorDeriveUnsignedBounds x y = some (low, high) ∧
          ∀ n, Results logior x y n → n ≤ high := by
      obtain ⟨low, high, hb, h0, hmem⟩ :=
        logiorDeriveUnsignedBounds_spec (unsignedHigh_of_high hxn hxh)
          (unsignedHigh_of_high hyn hyh)
      refine ⟨low, high, hb, fun n hn => ?_⟩
      obtain ⟨a, ha, b, hb, rfl⟩ := hn
      rcases lt_or_ge (logior a b) 0 with hlt | hge
      · omega
      · have := hneg a b
        exact (hmem a ha b hb (by omega) (by omega)).2
    split
    · rename_i xLen yLen hxl hyl
      obtain ⟨xLow, xHigh, hxlow, hxhigh, -⟩ := bounds_of_len hxl
      obtain ⟨yLow, yHigh, hylow, hyhigh, -⟩ := bounds_of_len hyl
      obtain ⟨low, high, hb, hle⟩ := hhigh hxhigh hyhigh
      rw [show (integerTypeLength x).low = some xLow from hxlow, show (integerTypeLength y).low =
        some yLow from hylow]
      simp only [bind_eq_bind, bind_some]
      refine Sound.withBounds (unsignedHigh_of_high hxn hxhigh) (unsignedHigh_of_high hyn hyhigh)
        ⟨low, high, hb, fun n hn => ?_⟩
      refine mem_specifierInteger ?_ (by simpa using hle n hn)
      obtain ⟨a, ha, b, hb, rfl⟩ := hn
      have h1 := low_le ha hxlow
      have h2 := low_le hb hylow
      simp only [mem_some_iff, forall_eq']
      rcases lt_or_ge b 0 with hb0 | hb0
      · have := hright (a := a) (Or.inr hb0)
        omega
      · have := hleft (a := a) (Or.inl hb0)
        omega
    · split
      · rename_i xHigh yHigh hxh hyh
        obtain ⟨low, high, hb, hle⟩ := hhigh hxh hyh
        refine Sound.withBounds (unsignedHigh_of_high hxn hxh) (unsignedHigh_of_high hyn hyh)
          ⟨low, high, hb, fun n hn => ?_⟩
        exact mem_specifierInteger (by simp) (by simpa using hle n hn)
      · exact Sound.integer fun n hn => ⟨by simp, by simp⟩

/-! ## `logxor` -/

theorem logxorDeriveTypeAux_sound (x y : IntegerType) :
    Sound IntegerType.Unsigned (Results logxor x y) (logxorDeriveTypeAux x y false) := by
  have hneg (a b : ℤ) : logxor a b < 0 ↔ (a < 0 ↔ 0 ≤ b) := lxor_neg_iff a b
  -- no result has more bits than the operands
  have hfits {xLen yLen : ℕ} (hxl : (integerTypeLength x).len = some xLen)
      (hyl : (integerTypeLength y).len = some yLen)
      {a b : ℤ} (ha : a ∈ x) (hb : b ∈ y) : Fits (max xLen yLen) (logxor a b) :=
    ((fits_of_len hxl ha).mono (le_max_left _ _)).lxor
      ((fits_of_len hyl hb).mono (le_max_right _ _))
  unfold logxorDeriveTypeAux
  rw [if_neg Bool.false_ne_true]
  dsimp only
  split_ifs with hnn hpp hmixed
  · rw [and_eq_true, not_eq_true', not_eq_true'] at hnn
    obtain ⟨hx, hy⟩ := hnn
    split
    · rename_i xLen yLen hxl hyl
      have hux := unsigned_of_len hx hxl
      have huy := unsigned_of_len hy hyl
      obtain ⟨low, high, hb, hmem⟩ := logxorDeriveUnsignedBounds_spec hux huy
      refine Sound.withBounds hux huy ⟨low, high, hb, fun n hn => ?_⟩
      obtain ⟨a, ha, b, hb, rfl⟩ := hn
      exact mem_specifierInteger (by simpa using (hmem a ha b hb).1)
        (by simpa using (hmem a ha b hb).2)
    · refine Sound.integer fun n hn => ⟨?_, by simp⟩
      obtain ⟨a, ha, b, hb, rfl⟩ := hn
      have := hneg a b
      have := nonneg_of_not_neg hx ha
      have := nonneg_of_not_neg hy hb
      simp only [mem_some_iff, forall_eq']
      omega
  · rw [and_eq_true, not_eq_true', not_eq_true'] at hpp
    have hres {a b : ℤ} (ha : a ∈ x) (hb : b ∈ y) : 0 ≤ logxor a b := by
      have := hneg a b
      have := neg_of_not_pos hpp.1 ha
      have := neg_of_not_pos hpp.2 hb
      omega
    split
    · rename_i xLen yLen hxl hyl
      refine Sound.integer fun n hn => ?_
      obtain ⟨a, ha, b, hb, rfl⟩ := hn
      have := (hfits hxl hyl ha hb).2
      simp only [mem_some_iff, forall_eq']
      exact ⟨hres ha hb, by omega⟩
    · refine Sound.integer fun n hn => ⟨?_, by simp⟩
      obtain ⟨a, ha, b, hb, rfl⟩ := hn
      simpa using hres ha hb
  · rw [or_eq_true, and_eq_true, and_eq_true, not_eq_true', not_eq_true', not_eq_true',
      not_eq_true'] at hmixed
    have hres {a b : ℤ} (ha : a ∈ x) (hb : b ∈ y) : logxor a b < 0 := by
      rw [hneg]
      rcases hmixed with ⟨hx, hy⟩ | ⟨hy, hx⟩
      · have := neg_of_not_pos hx ha
        have := nonneg_of_not_neg hy hb
        omega
      · have := neg_of_not_pos hy hb
        have := nonneg_of_not_neg hx ha
        omega
    split
    · rename_i xLen yLen hxl hyl
      refine Sound.integer fun n hn => ?_
      obtain ⟨a, ha, b, hb, rfl⟩ := hn
      have h1 := (hfits hxl hyl ha hb).1
      have h2 := hres ha hb
      simp only [mem_some_iff, forall_eq', ← Nat.cast_max, ash_ofNat]
      omega
    · refine Sound.integer fun n hn => ⟨by simp, ?_⟩
      obtain ⟨a, ha, b, hb, rfl⟩ := hn
      have := hres ha hb
      simp only [mem_some_iff, forall_eq']
      omega
  · split
    · rename_i xLen yLen hxl hyl
      refine Sound.integer fun n hn => ?_
      obtain ⟨a, ha, b, hb, rfl⟩ := hn
      obtain ⟨h1, h2⟩ := hfits hxl hyl ha hb
      simp only [mem_some_iff, forall_eq', Nat.add_sub_cancel_left]
      omega
    · exact Sound.integer fun n hn => ⟨by simp, by simp⟩

/-- Every result is in the derived type, for one operand used twice as well, and the unsigned bounds
are called on natural numbers only. -/
theorem bitops_derive_type_sound (x y : IntegerType) (sameLeaf : Bool) :
    Sound IntegerType.Unsigned (fun n => ∃ a ∈ x, ∃ b ∈ y,
      (sameLeaf = true → a = b) ∧ n = logand a b) (logandDeriveTypeAux x y sameLeaf) ∧
    Sound IntegerType.UnsignedHigh (fun n => ∃ a ∈ x, ∃ b ∈ y,
      (sameLeaf = true → a = b) ∧ n = logior a b) (logiorDeriveTypeAux x y sameLeaf) ∧
    Sound IntegerType.Unsigned (fun n => ∃ a ∈ x, ∃ b ∈ y,
      (sameLeaf = true → a = b) ∧ n = logxor a b) (logxorDeriveTypeAux x y sameLeaf) := by
  have hforget {op : ℤ → ℤ → ℤ} (n : ℤ) (h : ∃ a ∈ x, ∃ b ∈ y,
    (false = true → a = b) ∧ n = op a b) :
      Results op x y n := by
    obtain ⟨a, ha, b, hb, -, hn⟩ := h
    exact ⟨a, ha, b, hb, hn⟩
  cases sameLeaf with
  | false =>
    exact ⟨(logandDeriveTypeAux_sound x y).mono hforget,
      (logiorDeriveTypeAux_sound x y).mono hforget, (logxorDeriveTypeAux_sound x y).mono hforget⟩
  | true =>
    refine ⟨Sound.derived fun n hn => ?_, Sound.derived fun n hn => ?_,
      Sound.integer fun n hn => ?_⟩
    · obtain ⟨a, ha, b, -, hab, rfl⟩ := hn
      rw [← hab rfl, logand_self]
      exact ⟨x, List.mem_singleton_self x, ha⟩
    · obtain ⟨a, ha, b, -, hab, rfl⟩ := hn
      rw [← hab rfl, show logior a a = a from eq_of_testBit_eq fun i => by simp]
      exact ⟨x, List.mem_singleton_self x, ha⟩
    · obtain ⟨a, ha, b, -, hab, rfl⟩ := hn
      rw [← hab rfl,
        show logxor a a = 0 from eq_of_testBit_eq fun i => by simp [logxor, testBit_zero]]
      simp

end Sbcl.Compiler
