import Mathlib.Tactic.Positivity

/-!
# Intervals with closed, strict or absent bounds

* `Bound`, `Interval` : a bound that belongs to the interval or not, and intervals with up to two of
  them;
* `Bound.Below`, `Bound.Above` : what a lower and an upper bound say of a member;
* `Below.neg`, `.add`, `.sub`, `.mul`, `.div` : the bound of a result from the bounds of the
  operands, which is strict when one of them is; products and quotients are of nonnegative operands;
* `Interval.InLow`, `.InHigh` : the two sides of an interval, and the members near its bounds.
-/

namespace Intervals

open Bool

inductive Bound (α : Type*) where
  | closed (n : α)
  | strict (n : α)
  deriving DecidableEq

namespace Bound

variable {α : Type*}

def value : Bound α → α
  | closed n | strict n => n

def isStrict : Bound α → Bool
  | closed _ => false
  | strict _ => true

/-- The bound with a given value. -/
def of (n : α) (isStrict : Bool) : Bound α := if isStrict then strict n else closed n

@[simp] theorem value_closed (n : α) : (closed n).value = n := rfl

@[simp] theorem value_strict (n : α) : (strict n).value = n := rfl

@[simp] theorem isStrict_closed (n : α) : (closed n).isStrict = false := rfl

@[simp] theorem isStrict_strict (n : α) : (strict n).isStrict = true := rfl

@[simp] theorem value_of (n : α) (s : Bool) : (of n s).value = n := by cases s <;> rfl

@[simp] theorem isStrict_of (n : α) (s : Bool) : (of n s).isStrict = s := by cases s <;> rfl

@[simp] theorem of_isStrict (b : Bound α) : of b.value b.isStrict = b := by cases b <;> rfl

section Order

variable [LinearOrder α]

/-- `b` is a lower bound of `n`. -/
def Below (b : Bound α) (n : α) : Prop := b.value ≤ n ∧ (b.isStrict = true → b.value < n)

/-- `b` is an upper bound of `n`. -/
def Above (b : Bound α) (n : α) : Prop := n ≤ b.value ∧ (b.isStrict = true → n < b.value)

/-- A nonnegative lower bound other than a closed zero leaves positive members only. -/
theorem Below.pos [Zero α] {b : Bound α} {n : α} (h : b.Below n) (h0 : 0 ≤ b.value)
    (hz : b ≠ .closed 0) : 0 < n := by
  rcases h0.lt_or_eq with hlt | heq
  · exact hlt.trans_le h.1
  · cases b with
    | closed l => exact absurd (congrArg Bound.closed heq.symm) hz
    | strict l => exact h0.trans_lt (h.2 rfl)

theorem Above.pos [Zero α] {b : Bound α} {n : α} (h : b.Above n) (h0 : 0 ≤ n) (hz : b ≠ .closed 0) :
    0 < b.value := by
  rcases (h0.trans h.1).lt_or_eq with hlt | heq
  · exact hlt
  · cases b with
    | closed u => exact absurd (congrArg Bound.closed heq.symm) hz
    | strict u => exact h0.trans_lt (h.2 rfl)

instance (b : Bound α) (n : α) : Decidable (b.Below n) := inferInstanceAs (Decidable (_ ∧ _))

instance (b : Bound α) (n : α) : Decidable (b.Above n) := inferInstanceAs (Decidable (_ ∧ _))

theorem Below.le {b : Bound α} {n : α} (h : b.Below n) : b.value ≤ n := h.1

theorem Above.le {b : Bound α} {n : α} (h : b.Above n) : n ≤ b.value := h.1

theorem below_closed {n m : α} : (closed n).Below m ↔ n ≤ m := ⟨And.left, fun h => ⟨h, nofun⟩⟩

theorem above_closed {n m : α} : (closed n).Above m ↔ m ≤ n := ⟨And.left, fun h => ⟨h, nofun⟩⟩

theorem Below.closed {b : Bound α} {n : α} (h : b.Below n) : (Bound.closed b.value).Below n :=
  below_closed.2 h.1

theorem Above.closed {b : Bound α} {n : α} (h : b.Above n) : (Bound.closed b.value).Above n :=
  above_closed.2 h.1

/-- A bound with the same value says less when it is strict only if the other is. -/
theorem Below.weaken {b c : Bound α} {n : α} (h : b.Below n) (hv : c.value = b.value)
    (hs : c.isStrict = true → b.isStrict = true) : c.Below n :=
  ⟨hv ▸ h.1, fun hc => hv ▸ h.2 (hs hc)⟩

theorem Above.weaken {b c : Bound α} {n : α} (h : b.Above n) (hv : c.value = b.value)
    (hs : c.isStrict = true → b.isStrict = true) : c.Above n :=
  ⟨hv ▸ h.1, fun hc => hv ▸ h.2 (hs hc)⟩

theorem below_of_lt {b : Bound α} {n : α} (h : b.value < n) : b.Below n := ⟨h.le, fun _ => h⟩

theorem above_of_lt {b : Bound α} {n : α} (h : n < b.value) : b.Above n := ⟨h.le, fun _ => h⟩

end Order

def neg [Neg α] (b : Bound α) : Bound α := of (-b.value) b.isStrict

/-- A bound with the value of an operation, strict when one of the bounds is. -/
def op (f : α → α → α) (b c : Bound α) : Bound α :=
  of (f b.value c.value) (b.isStrict || c.isStrict)

@[simp] theorem value_neg [Neg α] (b : Bound α) : b.neg.value = -b.value := value_of ..

@[simp] theorem isStrict_neg [Neg α] (b : Bound α) : b.neg.isStrict = b.isStrict := isStrict_of ..

@[simp] theorem value_op (f : α → α → α) (b c : Bound α) : (op f b c).value = f b.value c.value :=
  value_of ..

@[simp] theorem isStrict_op (f : α → α → α) (b c : Bound α) :
    (op f b c).isStrict = (b.isStrict || c.isStrict) :=
  isStrict_of ..

theorem neg_neg [InvolutiveNeg α] (b : Bound α) : b.neg.neg = b := by
  unfold neg
  simp

theorem op_sub [SubtractionMonoid α] (b c : Bound α) : op (· - ·) b c = op (· + ·) b c.neg := by
  unfold op
  simp [sub_eq_add_neg]

section Field

variable [Field α] [LinearOrder α] [IsStrictOrderedRing α] {b c : Bound α} {m n : α}

theorem above_neg (h : b.Below n) : b.neg.Above (-n) := by
  unfold Above Below at *
  simpa using h

theorem below_neg (h : b.Above n) : b.neg.Below (-n) := by
  unfold Above Below at *
  simpa using h

theorem Below.add (hb : b.Below m) (hc : c.Below n) : (op (· + ·) b c).Below (m + n) := by
  refine ⟨by simpa using add_le_add hb.1 hc.1, fun hs => ?_⟩
  rw [isStrict_op, or_eq_true] at hs
  rw [value_op]
  rcases hs with hs | hs
  · exact add_lt_add_of_lt_of_le (hb.2 hs) hc.1
  · exact add_lt_add_of_le_of_lt hb.1 (hc.2 hs)

theorem Above.add (hb : b.Above m) (hc : c.Above n) : (op (· + ·) b c).Above (m + n) := by
  refine ⟨by simpa using add_le_add hb.1 hc.1, fun hs => ?_⟩
  rw [isStrict_op, or_eq_true] at hs
  rw [value_op]
  rcases hs with hs | hs
  · exact add_lt_add_of_lt_of_le (hb.2 hs) hc.1
  · exact add_lt_add_of_le_of_lt hb.1 (hc.2 hs)

theorem Below.sub (hb : b.Below m) (hc : c.Above n) : (op (· - ·) b c).Below (m - n) := by
  rw [op_sub, sub_eq_add_neg]
  exact hb.add (below_neg hc)

theorem Above.sub (hb : b.Above m) (hc : c.Below n) : (op (· - ·) b c).Above (m - n) := by
  rw [op_sub, sub_eq_add_neg]
  exact hb.add (above_neg hc)

/-! ## Products and quotients of nonnegative operands -/

theorem Below.mul (hb : b.Below m) (hc : c.Below n) (hb0 : 0 ≤ b.value) (hc0 : 0 ≤ c.value)
    (hbz : b ≠ .closed 0) (hcz : c ≠ .closed 0) : (op (· * ·) b c).Below (m * n) := by
  have hm0 : 0 < m := hb.pos hb0 hbz
  have hn0 : 0 < n := hc.pos hc0 hcz
  refine ⟨by simpa using mul_le_mul hb.1 hc.1 hc0 hm0.le, fun hs => ?_⟩
  rw [isStrict_op, or_eq_true] at hs
  rw [value_op]
  rcases hc0.lt_or_eq with hpos | hzero
  · rcases hs with hs | hs
    · calc b.value * c.value < m * c.value := mul_lt_mul_of_pos_right (hb.2 hs) hpos
        _ ≤ m * n := mul_le_mul_of_nonneg_left hc.1 hm0.le
    · calc b.value * c.value ≤ m * c.value := mul_le_mul_of_nonneg_right hb.1 hc0
        _ < m * n := mul_lt_mul_of_pos_left (hc.2 hs) hm0
  · rw [← hzero, mul_zero]
    exact mul_pos hm0 hn0

theorem Above.mul (hb : b.Above m) (hc : c.Above n) (hm0 : 0 ≤ m) (hn0 : 0 ≤ n)
    (hbz : b ≠ .closed 0) (hcz : c ≠ .closed 0) : (op (· * ·) b c).Above (m * n) := by
  have hb0 : 0 < b.value := hb.pos hm0 hbz
  have hc0 : 0 < c.value := hc.pos hn0 hcz
  refine ⟨by simpa using mul_le_mul hb.1 hc.1 hn0 hb0.le, fun hs => ?_⟩
  rw [isStrict_op, or_eq_true] at hs
  rw [value_op]
  rcases hs with hs | hs
  · calc m * n ≤ m * c.value := mul_le_mul_of_nonneg_left hc.1 hm0
      _ < b.value * c.value := mul_lt_mul_of_pos_right (hb.2 hs) hc0
  · calc m * n ≤ b.value * n := mul_le_mul_of_nonneg_right hb.1 hn0
      _ < b.value * c.value := mul_lt_mul_of_pos_left (hc.2 hs) hb0

theorem Below.div (hb : b.Below m) (hc : c.Above n) (hb0 : 0 ≤ b.value) (hn0 : 0 < n)
    (hbz : b ≠ .closed 0) : (op (· / ·) b c).Below (m / n) := by
  have hm0 : 0 < m := hb.pos hb0 hbz
  have hc0 : 0 < c.value := hn0.trans_le hc.1
  have hle : b.value / c.value ≤ m / c.value := by gcongr; exact hb.1
  have hle' : m / c.value ≤ m / n := by gcongr; exact hc.1
  refine ⟨by simpa using hle.trans hle', fun hs => ?_⟩
  rw [isStrict_op, or_eq_true] at hs
  rw [value_op]
  rcases hs with hs | hs
  · exact lt_of_lt_of_le (div_lt_div_of_pos_right (hb.2 hs) hc0) hle'
  · exact lt_of_le_of_lt hle (div_lt_div_of_pos_left hm0 hn0 (hc.2 hs))

theorem Above.div (hb : b.Above m) (hc : c.Below n) (hm0 : 0 ≤ m) (hc0 : 0 < c.value)
    (hbz : b ≠ .closed 0) : (op (· / ·) b c).Above (m / n) := by
  have hb0 : 0 < b.value := hb.pos hm0 hbz
  have hn0 : 0 < n := hc0.trans_le hc.1
  have hle : m / n ≤ m / c.value := by gcongr; exact hc.1
  have hle' : m / n ≤ b.value / n := by gcongr; exact hb.1
  have hle'' : b.value / n ≤ b.value / c.value := by gcongr; exact hc.1
  refine ⟨by simpa using hle'.trans hle'', fun hs => ?_⟩
  rw [isStrict_op, or_eq_true] at hs
  rw [value_op]
  rcases hs with hs | hs
  · exact lt_of_le_of_lt hle (div_lt_div_of_pos_right (hb.2 hs) hc0)
  · exact lt_of_le_of_lt hle' (div_lt_div_of_pos_left hb0 hc0 (hc.2 hs))

end Field

end Bound

structure Interval (α : Type*) where
  low : Option (Bound α)
  high : Option (Bound α)
  deriving DecidableEq

namespace Interval

variable {α : Type*} [LinearOrder α]

instance : Membership α (Interval α) :=
  ⟨fun x n => (∀ b ∈ x.low, b.Below n) ∧ ∀ b ∈ x.high, b.Above n⟩

instance (n : α) (x : Interval α) : Decidable (n ∈ x) := inferInstanceAs (Decidable (_ ∧ _))

variable {x : Interval α} {b : Bound α} {n : α}

theorem below (h : n ∈ x) (hb : x.low = some b) : b.Below n := h.1 b hb

/-! ## The two sides of an interval -/

/-- `n` is not below the interval. -/
def InLow (x : Interval α) (n : α) : Prop := ∀ b ∈ x.low, b.Below n

/-- `n` is not above the interval. -/
def InHigh (x : Interval α) (n : α) : Prop := ∀ b ∈ x.high, b.Above n

variable {a m : α}

theorem InLow.mono (h : x.InLow m) (hmn : m ≤ n) : x.InLow n :=
  fun b hb => ⟨(h b hb).1.trans hmn, fun hs => ((h b hb).2 hs).trans_le hmn⟩

theorem InHigh.anti (h : x.InHigh n) (hmn : m ≤ n) : x.InHigh m :=
  fun b hb => ⟨hmn.trans (h b hb).1, fun hs => hmn.trans_lt ((h b hb).2 hs)⟩

theorem mem_of_le_of_le (ha : a ∈ x) (hn : n ∈ x) (ham : a ≤ m) (hmn : m ≤ n) : m ∈ x :=
  ⟨InLow.mono (x := x) ha.1 ham, InHigh.anti (x := x) hn.2 hmn⟩

theorem lt_of_not_inLow (h : ¬x.InLow n) (ha : a ∈ x) : n < a := by
  by_contra hle
  exact h (InLow.mono (x := x) ha.1 (not_lt.1 hle))

theorem mem_of_inLow (h : x.InLow n) (ha : a ∈ x) (hna : n ≤ a) : n ∈ x :=
  ⟨h, InHigh.anti (x := x) ha.2 hna⟩

theorem mem_of_inHigh (h : x.InHigh n) (ha : a ∈ x) (han : a ≤ n) : n ∈ x :=
  ⟨InLow.mono (x := x) ha.1 han, h⟩

variable {y : Interval α}

theorem forall_lt_of_disjoint {b : α} (h : ∀ n ∈ x, n ∉ y) (ha : a ∈ x) (hb : b ∈ y) (hab : a < b) :
    ∀ m ∈ x, ∀ n ∈ y, m < n := by
  intro m hm n hn
  by_contra hle
  rcases le_or_gt a n with han | hna
  · exact h n (mem_of_le_of_le ha hm han (not_lt.1 hle)) hn
  · exact h a ha (mem_of_le_of_le hn hb hna.le hab.le)

variable [DenselyOrdered α]

theorem exists_inLow_lt [NoMinOrder α] (h : ∀ b ∈ x.low, b.value < n) : ∃ m < n, ∀ b ∈ x.low,
    b.value < m := by
  cases hl : x.low with
  | none =>
    obtain ⟨m, hm⟩ := exists_lt n
    exact ⟨m, hm, nofun⟩
  | some b =>
    obtain ⟨m, hbm, hmn⟩ := exists_between (h b hl)
    exact ⟨m, hmn, fun c hc => Option.some_inj.1 hc ▸ hbm⟩

theorem exists_inHigh_gt [NoMaxOrder α] (h : ∀ b ∈ x.high, n < b.value) : ∃ m > n, ∀ b ∈ x.high,
    m < b.value := by
  cases hl : x.high with
  | none =>
    obtain ⟨m, hm⟩ := exists_gt n
    exact ⟨m, hm, nofun⟩
  | some b =>
    obtain ⟨m, hnm, hmb⟩ := exists_between (h b hl)
    exact ⟨m, hnm, fun c hc => Option.some_inj.1 hc ▸ hmb⟩

theorem exists_mem_lt [NoMinOrder α] (hx : a ∈ x) (h : ∀ b ∈ x.low, b.value < n) :
    ∃ m ∈ x, m < n := by
  obtain ⟨m, hmn, hm⟩ := exists_inLow_lt h
  rcases le_total a m with ham | hma
  · exact ⟨a, hx, ham.trans_lt hmn⟩
  · exact ⟨m, mem_of_inLow (fun b hb => Bound.below_of_lt (hm b hb)) hx hma, hmn⟩

theorem exists_mem_gt [NoMaxOrder α] (hx : a ∈ x) (h : ∀ b ∈ x.high, n < b.value) :
    ∃ m ∈ x, n < m := by
  obtain ⟨m, hnm, hm⟩ := exists_inHigh_gt h
  rcases le_total a m with ham | hma
  · exact ⟨m, mem_of_inHigh (fun b hb => Bound.above_of_lt (hm b hb)) hx ham, hnm⟩
  · exact ⟨a, hx, hnm.trans_le hma⟩

end Interval

end Intervals
