import Sbcl.Numbers.CompareCorrect
import Sbcl.Numbers.Range

/-!
# A range comparison is two comparisons, unless a double-float is an end that is no single-float

* `singleFloatOf_exact`, `singleFloatOf_int` : a number of the type is kept, and an integer stays
  one;
* `comparer_between` : a float that is no integer;
* `comparer_integer_iff` : a float that is one, with `MissedEnd`;
* `ratioInRange_eq` : a ratio;
* `range_comparisons_iff` : all four operations, for every real.
-/

namespace Sbcl.Numbers

open SbBignum Printer BinaryFloat Int

variable {type : FloatType}

/-! ## Single-floats -/

theorem roundEven_natCast (n : ℕ) : roundEven (n : ℚ) = n := by
  unfold roundEven
  rw [Nat.floor_natCast]
  simp

theorem singleFloatOf_int (n : ℤ) : ∃ w : ℤ, singleFloatOf n = w := by
  refine ⟨n.sign *
    (roundEven (n.natAbs / 2 ^ (integerLength n.natAbs - FloatType.singleFloat.digits)) *
    2 ^ (integerLength n.natAbs - FloatType.singleFloat.digits)), ?_⟩
  rw [singleFloatOf]
  push_cast
  rfl

theorem singleFloatOf_of_dvd {n : ℤ} {m : ℕ}
    (h : n.natAbs = m * 2 ^ (n.natAbs.size - FloatType.singleFloat.digits)) :
    singleFloatOf n = n := by
  have hunit : (2 : ℚ) ^ (n.natAbs.size - FloatType.singleFloat.digits) ≠ 0 := by positivity
  have hquot : (n.natAbs : ℚ) / 2 ^ (n.natAbs.size - FloatType.singleFloat.digits) = m := by
    rw [div_eq_iff hunit]
    exact_mod_cast h
  have habs : (m : ℚ) * 2 ^ (n.natAbs.size - FloatType.singleFloat.digits) = n.natAbs :=
    ((div_eq_iff hunit).1 hquot).symm
  have hsign : ((n.sign * n.natAbs : ℤ) : ℚ) = n := by rw [Int.sign_mul_natAbs]
  rw [Int.cast_mul, Int.cast_natCast] at hsign
  rw [singleFloatOf, integerLength_natCast, hquot, roundEven_natCast, habs, hsign]

theorem singleFloatOf_exact {bits : FloatBits .singleFloat}
    (hfinite : IsFinite .singleFloat bits) {n : ℤ}
    (hn : floatValue bits = n) : singleFloatOf n = n := by
  obtain ⟨f, e, -, hvalue, hf, -⟩ := integerDecodeFloat_eq hfinite
  have habs : (n.natAbs : ℚ) = f * 2 ^ e := by
    rw [hvalue, ← abs_floatValue, hn, ← cast_abs, abs_eq_natAbs, Int.cast_natCast]
  rcases Int.lt_or_le e 0 with he | he
  · -- Below the point there is nothing, so the integer has no more digits than the significand.
    have hsmall : n.natAbs < 2 ^ FloatType.singleFloat.digits := by
      have hle : (n.natAbs : ℚ) ≤ f := by
        rw [habs]
        exact mul_le_of_le_one_right (Nat.cast_nonneg f) (zpow_le_one_of_nonpos₀ one_le_two he.le)
      exact (Nat.cast_le.1 hle).trans_lt hf
    refine singleFloatOf_of_dvd (m := n.natAbs) ?_
    rw [Nat.sub_eq_zero_of_le (Nat.size_le.2 hsmall), pow_zero, mul_one]
  · obtain ⟨k, rfl⟩ := eq_ofNat_of_zero_le he
    have hnat : n.natAbs = f * 2 ^ k := by exact_mod_cast habs
    have hsize : n.natAbs.size ≤ FloatType.singleFloat.digits + k := by
      rw [Nat.size_le, hnat, pow_add]
      exact Nat.mul_lt_mul_of_pos_right hf (Nat.two_pow_pos k)
    refine singleFloatOf_of_dvd (m :=
      f * 2 ^ (k - (n.natAbs.size - FloatType.singleFloat.digits))) ?_
    rw [mul_assoc, ← pow_add, Nat.sub_add_cancel (by omega)]
    exact hnat

namespace RangeOp

/-- The comparison of the lower end with the number. -/
def lowOp : RangeOp → CompareOp
  | lt | ltLe => .lt
  | le | leLt => .le

/-- The comparison of the number with the upper end. -/
def highOp : RangeOp → CompareOp
  | lt | leLt => .lt
  | le | ltLe => .le

def function : RangeOp → Fixnum → RealArg → Fixnum → Bool
  | lt => rangeLt
  | le => rangeLe
  | ltLe => rangeLtLe
  | leLt => rangeLeLt

/-- The two comparisons, each for itself. -/
def exact (op : RangeOp) (low high : ℤ) (v : ℚ) : Bool :=
  op.lowOp.holds (low : ℚ) v && op.highOp.holds v (high : ℚ)

theorem function_eq (op : RangeOp) : op.function = defRange op op.lowOp op.highOp := by
  cases op <;> rfl

end RangeOp

def RealArg.value : RealArg → ℚ
  | rational x => x.value
  | float _ bits => floatValue bits

/-- The reals that are numbers. -/
def RealArg.Finite : RealArg → Prop
  | rational _ => True
  | float type bits => IsFinite type bits

theorem exact_of_between {v : ℚ} {z : ℤ} (hlow : (z : ℚ) < v) (hhigh : v < z + 1) (op : RangeOp)
    (low high : ℤ) : op.exact low high v = (decide (low ≤ z) && decide (z < high)) := by
  have h1 : (low : ℚ) < v ↔ low ≤ z :=
    ⟨fun h => lt_add_one_iff.1 (by exact_mod_cast h.trans hhigh),
      fun h => (cast_le.2 h).trans_lt hlow⟩
  have h2 : (low : ℚ) ≤ v ↔ low ≤ z :=
    ⟨fun h => lt_add_one_iff.1 (by exact_mod_cast h.trans_lt hhigh),
      fun h => (cast_le.2 h).trans hlow.le⟩
  have h3 : v < (high : ℚ) ↔ z < high :=
    ⟨fun h => by exact_mod_cast hlow.trans h, fun h => hhigh.trans_le (by exact_mod_cast h)⟩
  have h4 : v ≤ (high : ℚ) ↔ z < high :=
    ⟨fun h => by exact_mod_cast hlow.trans_le h, fun h => hhigh.le.trans (by exact_mod_cast h)⟩
  cases op <;> simp [RangeOp.exact, RangeOp.lowOp, RangeOp.highOp, CompareOp.holds, h1, h2, h3, h4]

theorem comparer_between {v : ℚ} (hmax : v ≤ mostPositiveFixnumFloat type)
    (hmin : mostNegativeFixnumFloat ≤ v) (hv : ∀ n : ℤ, v ≠ n) (op : RangeOp) (low high : ℤ) :
    floatFixnumRangeComparer type op low high v = op.exact low high v := by
  have hfloat (q : ℤ) : v ≠ singleFloatOf q := by
    obtain ⟨w, hw⟩ := singleFloatOf_int q
    exact hw ▸ hv w
  have hfloor : (⌊v⌋ : ℚ) < v := lt_of_le_of_ne (floor_le v) (hv _).symm
  have hceil : v < (⌈v⌉ : ℚ) := lt_of_le_of_ne (le_ceil v) (hv _)
  unfold floatFixnumRangeComparer
  rw [if_neg (not_or.2 ⟨hmax.not_gt, hmin.not_gt⟩)]
  rcases lt_trichotomy v 0 with h | h | h
  · have hq : unaryTruncate v = ⌈v⌉ := if_neg h.not_ge
    rw [exact_of_between (z := ⌈v⌉ - 1) (by push_cast; linarith [ceil_lt_add_one v])
      (by push_cast; linarith)]
    cases op <;> simp only [hq, hfloat, h, h.not_gt, decide_true, decide_false] <;> grind
  · exact absurd h (by exact_mod_cast hv 0)
  · have hq : unaryTruncate v = ⌊v⌋ := if_pos h.le
    rw [exact_of_between hfloor (lt_floor_add_one v)]
    cases op <;> simp only [hq, hfloat, h, h.not_gt, decide_true, decide_false] <;> grind

/-- The upper or the lower end is the number, it becomes another one as a single-float, and the sign
is that of the branch that looks at it. -/
def MissedEnd (op : RangeOp) (low high n : ℤ) : Prop :=
  (low < high ∨ op = .le ∧ low = high) ∧ (n : ℚ) ≠ singleFloatOf n ∧
    (n = high ∧ (if op.highOp = .lt then n < 0 else 0 < n) ∨ n = low ∧
      if op.lowOp = .lt then 0 < n else n < 0)

theorem exact_intCast (op : RangeOp) (low high n : ℤ) :
    op.exact low high n = (op.lowOp.holds low n && op.highOp.holds n high) := by
  rw [RangeOp.exact, holds_intCast, holds_intCast]

theorem singleFloatOf_zero : singleFloatOf 0 = 0 := by
  rw [singleFloatOf, Int.sign_zero, Int.cast_zero, zero_mul]

theorem comparer_integer_iff {n : ℤ} (hmax : (n : ℚ) ≤ mostPositiveFixnumFloat type)
    (hmin : mostNegativeFixnumFloat ≤ (n : ℚ)) (op : RangeOp) (low high : ℤ) :
    floatFixnumRangeComparer type op low high n = op.exact low high n ↔
    ¬MissedEnd op low high n := by
  have hq : unaryTruncate n = n := by
    unfold unaryTruncate
    split_ifs
    · exact floor_intCast n
    · exact ceil_intCast n
  have hneg : (n : ℚ) < 0 ↔ n < 0 := by exact_mod_cast Iff.rfl
  have hpos : (0 : ℚ) < n ↔ 0 < n := by exact_mod_cast Iff.rfl
  have hzero : n = 0 → (n : ℚ) = singleFloatOf n :=
    fun h => by rw [h, singleFloatOf_zero, Int.cast_zero]
  rw [exact_intCast]
  unfold floatFixnumRangeComparer MissedEnd
  rw [if_neg (not_or.2 ⟨hmax.not_gt, hmin.not_gt⟩)]
  rcases em ((n : ℚ) = singleFloatOf n) with hfloat | hfloat
  · cases op <;> simp only [hq, hneg, hpos, eq_true hfloat, RangeOp.lowOp, RangeOp.highOp,
      CompareOp.holds] <;> grind
  · have hn := mt hzero hfloat
    cases op <;> simp only [hq, hneg, hpos, hfloat, RangeOp.lowOp, RangeOp.highOp, CompareOp.holds]
      <;> grind

theorem exact_of_above {v : ℚ} {high : ℤ} (h : (high : ℚ) < v) (op : RangeOp) (low : ℤ) :
    op.exact low high v = false := by
  cases op <;> simp [RangeOp.exact, RangeOp.highOp, CompareOp.holds, h.not_gt, h.not_ge]

theorem exact_of_below {v : ℚ} {low : ℤ} (h : v < low) (op : RangeOp) (high : ℤ) :
    op.exact low high v = false := by
  cases op <;> simp [RangeOp.exact, RangeOp.lowOp, CompareOp.holds, h.not_gt, h.not_ge]

theorem inRange_or (bits : FloatBits type) :
    (floatValue bits ≤ mostPositiveFixnumFloat type ∧ mostNegativeFixnumFloat ≤ floatValue bits) ∨
      ((mostPositiveFixnumFloat type < floatValue bits ∨
        floatValue bits < mostNegativeFixnumFloat) ∧
        ((∀ z : Fixnum, (z.val : ℚ) < floatValue bits) ∨ ∀ z : Fixnum,
          floatValue bits < z.val)) := by
  rcases lt_or_ge (mostPositiveFixnumFloat type) (floatValue bits) with hmax | hmax
  · refine .inr ⟨.inl hmax, .inl fun z => lt_of_lt_of_le ?_ (lt_of_mostPositive hmax)⟩
    exact_mod_cast z.upper
  rcases lt_or_ge (floatValue bits) mostNegativeFixnumFloat with hmin | hmin
  · refine .inr ⟨.inr hmin, .inr fun z => hmin.trans_le ?_⟩
    rw [mostNegativeFixnumFloat]
    exact_mod_cast z.lower
  · exact .inl ⟨hmax, hmin⟩

theorem comparer_iff (bits : FloatBits type) (op : RangeOp) (low high : Fixnum) :
    floatFixnumRangeComparer type op low.val high.val (floatValue bits) =
      op.exact low.val high.val (floatValue bits) ↔
      ¬∃ n : ℤ, floatValue bits = n ∧ MissedEnd op low.val high.val n := by
  rcases inRange_or bits with ⟨hmax, hmin⟩ | ⟨hout, hside⟩
  · by_cases hint : ∃ n : ℤ, floatValue bits = n
    · obtain ⟨n, hn⟩ := hint
      rw [hn] at hmax hmin ⊢
      rw [comparer_integer_iff hmax hmin]
      refine not_congr ⟨fun h => ⟨n, rfl, h⟩, fun ⟨m, hm, h⟩ => ?_⟩
      rwa [Int.cast_inj.1 hm]
    · have hv (n : ℤ) : floatValue bits ≠ n := fun hn => hint ⟨n, hn⟩
      exact iff_of_true (comparer_between hmax hmin hv op _ _) fun ⟨n, hn, _⟩ => hv n hn
  · have hcode : floatFixnumRangeComparer type op low.val high.val (floatValue bits) = false :=
      if_pos hout
    have hne (z : Fixnum) : floatValue bits ≠ z.val :=
      hside.elim (fun h => (h z).ne') fun h => (h z).ne
    refine iff_of_true (hcode.trans ?_) fun ⟨n, hn, _, _, hend⟩ => ?_
    · rcases hside with h | h
      · exact (exact_of_above (h high) op _).symm
      · exact (exact_of_below (h low) op _).symm
    · rcases hend with ⟨rfl, -⟩ | ⟨rfl, -⟩
      · exact hne high hn
      · exact hne low hn

/-! ## Ratios -/

/-- A ratio is between its quotient and the next integer on the side of its sign. -/
theorem truncate_ratio (r : Ratio) :
    (0 ≤ r.numerator ∧ (truncate r.numerator r.denominator : ℚ) < r.value ∧
        r.value < truncate r.numerator r.denominator + 1) ∨
      (r.numerator < 0 ∧ (truncate r.numerator r.denominator - 1 : ℚ) < r.value ∧
        r.value < truncate r.numerator r.denominator) := by
  have hden : 0 < r.denominator := zero_lt_one.trans r.one_lt
  have hdenQ : (0 : ℚ) < r.denominator := Int.cast_pos.2 hden
  have hsplit :
      (r.denominator * truncate r.numerator r.denominator + r.numerator.tmod r.denominator : ℤ) =
        r.numerator :=
    mul_tdiv_add_tmod _ _
  have hlt (z : ℤ) : (z : ℚ) < r.value ↔ z * r.denominator < r.numerator := by
    rw [Ratio.value, lt_div_iff₀ hdenQ]
    exact_mod_cast Iff.rfl
  have hgt (z : ℤ) : r.value < (z : ℚ) ↔ r.numerator < z * r.denominator := by
    rw [Ratio.value, div_lt_iff₀ hdenQ]
    exact_mod_cast Iff.rfl
  have hrem : r.numerator.tmod r.denominator ≠ 0 := by
    intro h0
    refine r.ne_intCast (truncate r.numerator r.denominator) ?_
    rw [h0, add_zero] at hsplit
    rw [Ratio.value, eq_div_iff hdenQ.ne', mul_comm]
    exact_mod_cast hsplit
  rcases Int.lt_or_le r.numerator 0 with hsign | hsign
  · have hpred := hlt (truncate r.numerator r.denominator - 1)
    push_cast at hpred
    rw [hpred, hgt]
    have hnonpos : r.numerator.tmod r.denominator ≤ 0 := by
      have := tmod_nonneg r.denominator (neg_nonneg.2 hsign.le)
      rwa [neg_tmod, neg_nonneg] at this
    have habove : -r.denominator < r.numerator.tmod r.denominator := lt_tmod_of_pos _ hden
    exact .inr ⟨hsign, by linarith, by linarith [lt_of_le_of_ne hnonpos hrem]⟩
  · have hsucc := hgt (truncate r.numerator r.denominator + 1)
    push_cast at hsucc
    rw [hsucc, hlt]
    have hnonneg : 0 ≤ r.numerator.tmod r.denominator := tmod_nonneg _ hsign
    have hbelow : r.numerator.tmod r.denominator < r.denominator := tmod_lt_of_pos _ hden
    exact .inl ⟨hsign, by linarith [lt_of_le_of_ne hnonneg hrem.symm], by linarith⟩

theorem ratioInRange_eq (low high : Fixnum) (r : Ratio) (op : RangeOp) :
    ratioInRange low high r = op.exact low.val high.val r.value := by
  have hlow := low.lower
  have hhigh := high.upper
  unfold ratioInRange
  rcases truncate_ratio r with ⟨hsign, hfloor, hceil⟩ | ⟨hsign, hfloor, hceil⟩
  · rw [exact_of_between hfloor hceil]
    simp only [hsign.not_gt, decide_false]
    grind
  · rw [exact_of_between (z := truncate r.numerator r.denominator - 1) (by push_cast; exact hfloor)
      (by push_cast; linarith)]
    simp only [hsign, decide_true]
    grind

theorem bignum_exact (low high : Fixnum) (b : NormalBignum) (op : RangeOp) :
    op.exact low.val high.val (b.toInt : ℚ) = false := by
  have hout := b.normalized.not_fixnum
  rw [IsFixnum, not_and_or, not_le, not_lt] at hout
  rcases hout with h | h
  · exact exact_of_below (cast_lt.2 (h.trans_le low.lower)) op _
  · exact exact_of_above (cast_lt.2 (high.upper.trans_le h)) op _

/-! ## All reals -/

/-- The number is a double-float that is an end and no single-float. -/
def DoubleMissed (op : RangeOp) (low high : ℤ) (x : RealArg) : Prop :=
  ∃ (bits : FloatBits .doubleFloat) (n : ℤ), x = .float .doubleFloat bits ∧ floatValue bits = n ∧
    MissedEnd op low high n

/-- For all fixnums and every number, an operation is the two comparisons of the exact values if and
only if the number is no such double-float. -/
theorem range_comparisons_iff (op : RangeOp) (low high : Fixnum) {x : RealArg} (hx : x.Finite) :
    op.function low x high =
      (op.lowOp.holds (low.val : ℚ) x.value && op.highOp.holds x.value (high.val : ℚ)) ↔
      ¬DoubleMissed op low.val high.val x := by
  rw [RangeOp.function_eq]
  change _ = op.exact low.val high.val x.value ↔ _
  cases x with
  | rational x =>
    refine iff_of_true ?_ fun ⟨bits, n, h, _⟩ => RealArg.noConfusion h
    cases x with
    | fixnum n => exact (exact_intCast op _ _ _).symm
    | bignum b => exact (bignum_exact low high b op).symm
    | ratio r => exact ratioInRange_eq low high r op
  | float type bits =>
    obtain ⟨f, e, hdecode, hvalue, -, -⟩ := integerDecodeFloat_eq hx
    have htest : infOrNanTest type bits = none := if_pos hx
    have hfloat := signed_mul_eq hvalue
    unfold defRange
    simp only [htest, hdecode, hfloat]
    rw [RealArg.value, comparer_iff]
    cases type with
    | singleFloat =>
      refine iff_of_true (fun ⟨n, hn, _, hne, _⟩ => ?_) fun ⟨bits, n, h, _⟩ => by cases h
      exact hne (singleFloatOf_exact hx hn).symm
    | doubleFloat =>
      refine not_congr ⟨fun ⟨n, h⟩ => ⟨bits, n, rfl, h⟩, fun ⟨bits', n, h, h'⟩ => ?_⟩
      cases h
      exact ⟨n, h'⟩

/-- `(range< -16777218 -16777217d0 -16777217)` is true: a single-float for the upper end is one
above it. -/
theorem range_lt_of_upper_end :
    let low : Fixnum := ⟨-16777218, by decide, by decide⟩
    let high : Fixnum := ⟨-16777217, by decide, by decide⟩
    let x : RealArg := .float .doubleFloat 0xC170000010000000#64
    x.Finite ∧ x.value = high.val ∧ rangeLt low x high = true ∧
    CompareOp.lt.holds x.value (high.val : ℚ) = false := by
  refine ⟨by unfold RealArg.Finite IsFinite; decide, ?_, ?_, ?_⟩
  · decide +kernel
  · decide +kernel
  · decide +kernel

/-- `(range<= -1 0.5d0 1)`. -/
theorem range_comparisons_iff_half :
    let low : Fixnum := ⟨-1, by decide, by decide⟩
    let high : Fixnum := ⟨1, by decide, by decide⟩
    let x : RealArg := .float .doubleFloat 0x3FE0000000000000#64
    rangeLe low x high =
      (CompareOp.le.holds (low.val : ℚ) x.value && CompareOp.le.holds x.value (high.val : ℚ)) ↔
      ¬DoubleMissed .le low.val high.val x :=
  range_comparisons_iff .le _ _ (by unfold RealArg.Finite IsFinite; decide)

end Sbcl.Numbers
