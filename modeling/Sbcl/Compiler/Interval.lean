import Mathlib.Data.Sign.Basic
import Sbcl.Lib.Interval

/-!
# Interval arithmetic (compiler/srctran.lisp)

* `intervalRangeInfo`, `intervalSplit`, `intervalContainsP` : the sign of an interval, its two parts
  at a point;
* `intervalIntersectionDifference`, `intervalAdjacentP`, `intervalMergePair`, `intervalLt`,
  `intervalApproximateUnion` : intersections and unions;
* `intervalNeg`, `intervalAdd`, `intervalSub`, `intervalMul`, `intervalDiv`, `intervalAbs`,
  `intervalSqr` : the operations.

The bounds are rational numbers, for which contagion changes nothing and the zero of every test is
the integer zero. A number that stands for a closed bound is `closed`, a list of one that stands for
an open bound `strict`.
-/

namespace Sbcl.Compiler

open Intervals

abbrev Bound := Intervals.Bound ℚ

abbrev Interval := Intervals.Interval ℚ

def typeBoundNumber (b : Option Bound) : Option ℚ := b.map Bound.value

def boundFunc (f : ℚ → ℚ) (x : Option Bound) (strict : Bool) : Option Bound :=
  x.map fun b => Bound.of (f b.value) (strict && b.isStrict)

/-- `bound-binop`, for a total operation. -/
def boundBinop (op : ℚ → ℚ → ℚ) (x y : Option Bound) : Option Bound := do
  let xb ← x
  let yb ← y
  return Bound.op op xb yb

def intervalSplit (p : ℚ) (x : Interval) (closeLower closeUpper : Bool) : Interval × Interval :=
  (⟨x.low, some (if closeLower then .closed p else .strict p)⟩,
    ⟨some (if closeUpper then .strict p else .closed p), x.high⟩)

def intervalClosure (x : Interval) : Interval :=
  ⟨(typeBoundNumber x.low).map .closed, (typeBoundNumber x.high).map .closed⟩

/-- What `interval-range-info` returns when it is not nil. -/
inductive Sign where
  | plus | minus
  deriving DecidableEq

def intervalRangeInfo (x : Interval) (point : ℚ) : Option Sign :=
  if ∃ lo ∈ x.low, point ≤ lo.value then some .plus
  else if ∃ hi ∈ x.high, hi.value ≤ point then some .minus
  else none

def intervalContainsP (p : ℚ) (interval : Interval) : Bool :=
  match interval.low, interval.high with
  | some lo, some hi =>
    if lo.value ≤ p ∧ p ≤ hi.value then
      if p = lo.value then !lo.isStrict
      else if p = hi.value then !hi.isStrict
      else true
    else false
  | none, some hi => if p < hi.value then true else !hi.isStrict && decide (p = hi.value)
  | some lo, none => if lo.value < p then true else !lo.isStrict && decide (p = lo.value)
  | none, none => true

/-! ## Intersections and unions -/

/-- Which bound of an interval a number is. -/
inductive Side where
  | low | high
  deriving DecidableEq

def oppositeBound : Option Bound → Option Bound
  | none => none
  | some (.closed n) => some (.strict n)
  | some (.strict n) => some (.closed n)

/-- `test-number`: is the end `p` of an interval in `int`? -/
def testNumber (p : Bound) (int : Interval) (bound : Side) : Bool :=
  if intervalContainsP p.value (intervalClosure int) then
    if typeBoundNumber int.low = some p.value ∧ typeBoundNumber int.high = some p.value then
      !p.isStrict && !(int.low.any Bound.isStrict) && !(int.high.any Bound.isStrict)
    else if typeBoundNumber int.low = some p.value then
      (!p.isStrict && !(int.low.any Bound.isStrict)) || (p.isStrict && bound = .low)
    else if typeBoundNumber int.high = some p.value then
      (!p.isStrict && !(int.high.any Bound.isStrict)) || (p.isStrict && bound = .high)
    else true
  else false

def testLowerBound (p : Option Bound) (int : Interval) : Bool :=
  match p with
  | some p => testNumber p int .low
  | none => int.low.isNone

def testUpperBound (p : Option Bound) (int : Interval) : Bool :=
  match p with
  | some p => testNumber p int .high
  | none => int.high.isNone

/-- The intersection, unless the intervals are apart, and the difference. -/
def intervalIntersectionDifference (x y : Interval) : Option Interval × List Interval :=
  let xLoInY := testLowerBound x.low y
  let xHiInY := testUpperBound x.high y
  let yLoInX := testLowerBound y.low x
  let yHiInX := testUpperBound y.high x
  if xLoInY || xHiInY || yLoInX || yHiInX then
    let (lo, leftLo, leftHi) :=
      if xLoInY then (x.low, y.low, oppositeBound x.low)
      else if yLoInX then (y.low, x.low, oppositeBound y.low)
      else (none, none, none)
    let (hi, rightLo, rightHi) :=
      if xHiInY then (x.high, oppositeBound x.high, y.high)
      else if yHiInX then (y.high, oppositeBound y.high, x.high)
      else (none, none, none)
    (some ⟨lo, hi⟩, [⟨leftLo, leftHi⟩, ⟨rightLo, rightHi⟩])
  else (none, [x, y])

def intervalIntersectP (x y : Interval) : Bool := (intervalIntersectionDifference x y).1.isSome

def adjacent (lo hi : Option Bound) : Bool :=
  match lo, hi with
  | some lo, some hi => decide (lo.value = hi.value) && (!lo.isStrict || !hi.isStrict)
  | _, _ => false

def intervalAdjacentP (x y : Interval) : Bool := adjacent y.low x.high || adjacent x.low y.high

def selectBound (x1 x2 : Option Bound) (minOp maxOp : ℚ → ℚ → Bool) : Option Bound :=
  match x1, x2 with
  | some x1, some x2 =>
    if minOp x1.value x2.value then some x1
    else if maxOp x1.value x2.value then some x2
    else some (Bound.of x1.value (x1.isStrict && x2.isStrict))
  | _, _ => none

def intervalMergePair (x y : Interval) : Option Interval :=
  if intervalIntersectP x y || intervalAdjacentP x y then
    some ⟨selectBound x.low y.low (· < ·) (· > ·), selectBound x.high y.high (· > ·) (· < ·)⟩
  else none

/-- `interval-<`. -/
def intervalLt (x y : Interval) : Bool :=
  match x.high, y.low with
  | some left, some right =>
    if left.value > right.value then false
    else if left.value < right.value then true
    else left.isStrict || right.isStrict
  | _, _ => false

def intervalApproximateUnion (x y : Interval) : Interval :=
  match intervalMergePair x y with
  | some z => z
  | none => if intervalLt x y then ⟨x.low, y.high⟩ else ⟨y.low, x.high⟩

def intervalNeg (x : Interval) : Interval :=
  ⟨boundFunc (- ·) x.high true, boundFunc (- ·) x.low true⟩

def intervalAdd (x y : Interval) : Interval :=
  ⟨boundBinop (· + ·) x.low y.low, boundBinop (· + ·) x.high y.high⟩

def intervalSub (x y : Interval) : Interval :=
  ⟨boundBinop (· - ·) x.low y.high, boundBinop (· - ·) x.high y.low⟩

/-! ## Products -/

/-- What can go wrong in place of an interval. -/
inductive Failure where
  /-- `(bug "excluded case")`. -/
  | bug
  /-- `interval-merge-pair` returned nil. -/
  | nil
  /-- A list of two intervals was passed on as an interval. -/
  | list
  deriving DecidableEq

/-- `interval-merge-pair`, where its value is taken for an interval. -/
def merged (x y : Interval) : Except Failure Interval :=
  match intervalMergePair x y with
  | some z => .ok z
  | none => .error .nil

def boundMul (x y : Option Bound) : Option Bound :=
  match x, y with
  | none, _ | _, none => none
  | some x, some y =>
    if x = .closed 0 ∨ y = .closed 0 then some
      (.closed (SignType.sign x.value * SignType.sign y.value))
    else boundBinop (· * ·) (some x) (some y)

/-- How many splits and sign changes an interval is away from a positive one. -/
def signRank (x : Interval) : ℕ :=
  match intervalRangeInfo x 0 with
  | none => 2
  | some .minus => 1
  | some .plus => 0

variable {x : Interval}

theorem rangeInfo_eq_plus {b : Bound} (hb : x.low = some b) (h0 : 0 ≤ b.value) :
    intervalRangeInfo x 0 = some .plus := by
  unfold intervalRangeInfo
  rw [if_pos ⟨b, hb, h0⟩]

theorem rangeInfo_neg (h : intervalRangeInfo x 0 = some .minus) :
    intervalRangeInfo (intervalNeg x) 0 = some .plus := by
  have hhi : ∃ hi ∈ x.high, hi.value ≤ 0 := by
    by_contra hc
    unfold intervalRangeInfo at h
    rw [if_neg hc] at h
    split_ifs at h
    cases h
  obtain ⟨b, hb, h0⟩ := hhi
  refine rangeInfo_eq_plus (b := b.neg) ?_ (by simpa using h0)
  rw [intervalNeg, Option.mem_def.1 hb]
  rfl

theorem rangeInfo_split_left (h : intervalRangeInfo x 0 = none) :
    intervalRangeInfo (intervalSplit 0 x true true).1 0 = some .minus := by
  unfold intervalRangeInfo at h ⊢
  split_ifs at h with h1
  show (if ∃ lo ∈ x.low, 0 ≤ lo.value then some Sign.plus else _) = _
  rw [if_neg h1, if_pos ⟨.closed 0, rfl, le_rfl⟩]

theorem rangeInfo_split_right (x : Interval) :
    intervalRangeInfo (intervalSplit 0 x true true).2 0 = some .plus :=
  rangeInfo_eq_plus rfl le_rfl

theorem signRank_split_left (h : intervalRangeInfo x 0 = none) :
    signRank (intervalSplit 0 x true true).1 < signRank x := by
  unfold signRank
  rw [h, rangeInfo_split_left h]
  exact Nat.one_lt_two

theorem signRank_split_right (h : intervalRangeInfo x 0 = none) :
    signRank (intervalSplit 0 x true true).2 < signRank x := by
  unfold signRank
  rw [h, rangeInfo_split_right]
  exact Nat.two_pos

theorem signRank_neg (h : intervalRangeInfo x 0 = some .minus) :
    signRank (intervalNeg x) < signRank x := by
  unfold signRank
  rw [h, rangeInfo_neg h]
  exact Nat.one_pos

def intervalMul (x y : Interval) : Except Failure Interval :=
  if intervalRangeInfo x 0 = none then do
    merged (← intervalMul (intervalSplit 0 x true true).1 y)
      (← intervalMul (intervalSplit 0 x true true).2 y)
  else if intervalRangeInfo y 0 = none then do
    merged (← intervalMul x (intervalSplit 0 y true true).1)
      (← intervalMul x (intervalSplit 0 y true true).2)
  else if intervalRangeInfo x 0 = some .minus then do
    return intervalNeg (← intervalMul (intervalNeg x) y)
  else if intervalRangeInfo y 0 = some .minus then do
    return intervalNeg (← intervalMul x (intervalNeg y))
  else if intervalRangeInfo x 0 = some .plus ∧ intervalRangeInfo y 0 = some .plus then
    return ⟨boundMul x.low y.low, boundMul x.high y.high⟩
  else .error .bug
termination_by signRank x + signRank y
decreasing_by
  · exact Nat.add_lt_add_right (signRank_split_left ‹_›) _
  · exact Nat.add_lt_add_right (signRank_split_right ‹_›) _
  · exact Nat.add_lt_add_left (signRank_split_left ‹_›) _
  · exact Nat.add_lt_add_left (signRank_split_right ‹_›) _
  · exact Nat.add_lt_add_right (signRank_neg ‹_›) _
  · exact Nat.add_lt_add_left (signRank_neg ‹_›) _

/-! ## Quotients -/

/-- What `interval-div` returns: an interval, or two that do not touch. -/
inductive Quotient where
  | interval (z : Interval)
  | pair (r₁ r₂ : Interval)
  deriving DecidableEq

def Quotient.asInterval : Quotient → Except Failure Interval
  | interval z => .ok z
  | pair _ _ => .error .list

/-- `bound-div`; `top` is the interval that `x` is a bound of. -/
def boundDiv (integer : Bool) (top : Interval) (x y : Option Bound) : Option Bound :=
  match y with
  | none => if integer && !intervalContainsP 0 top then some (.strict 0) else some (.closed 0)
  | some yb =>
    if yb.value = 0 then if integer then x else none
    else if x = some (.closed 0) then some (.closed (0 / SignType.sign yb.value))
    else boundBinop (· / ·) x (some yb)

def intervalDiv (top bot : Interval) (integer : Bool) : Except Failure Quotient :=
  if intervalRangeInfo bot 0 = none then
    if integer then do
      let r₁ ← (← intervalDiv top (intervalSplit 0 bot true true).1 integer).asInterval
      let r₂ ← (← intervalDiv top (intervalSplit 0 bot true true).2 integer).asInterval
      match intervalMergePair r₁ r₂ with
      | some z => return .interval z
      | none => return .pair r₁ r₂
    else
      match intervalRangeInfo top 0, intervalRangeInfo bot 0 with
      | some t, some b => if t = b then return .interval ⟨some (.closed (-0)), none⟩
          else return .interval ⟨none, some (.closed 0)⟩
      | _, _ => return .interval ⟨none, none⟩
  else if intervalRangeInfo bot 0 = some .minus then do
    return .interval (intervalNeg (← (← intervalDiv top (intervalNeg bot) integer).asInterval))
  else if intervalRangeInfo top 0 = none then do
    let r₁ ← (← intervalDiv (intervalSplit 0 top true true).1 bot integer).asInterval
    let r₂ ← (← intervalDiv (intervalSplit 0 top true true).2 bot integer).asInterval
    return .interval ((intervalMergePair r₁ r₂).getD ⟨none, none⟩)
  else if intervalRangeInfo top 0 = some .minus then do
    return .interval (intervalNeg (← (← intervalDiv (intervalNeg top) bot integer).asInterval))
  else if intervalRangeInfo top 0 = some .plus ∧ intervalRangeInfo bot 0 = some .plus then
    return .interval ⟨boundDiv integer top top.low bot.high,
      if top.high = some (.closed 0) then some (.closed 0)
      else boundDiv integer top top.high bot.low⟩
  else .error .bug
termination_by signRank top + signRank bot
decreasing_by
  · exact Nat.add_lt_add_left (signRank_split_left ‹_›) _
  · exact Nat.add_lt_add_left (signRank_split_right ‹_›) _
  · exact Nat.add_lt_add_left (signRank_neg ‹_›) _
  · exact Nat.add_lt_add_right (signRank_split_left ‹_›) _
  · exact Nat.add_lt_add_right (signRank_split_right ‹_›) _
  · exact Nat.add_lt_add_right (signRank_neg ‹_›) _

/-- `interval-func`, which does not take the function for increasing. -/
def intervalFunc (f : ℚ → ℚ) (x : Interval) : Interval :=
  ⟨boundFunc f x.low false, boundFunc f x.high false⟩

def intervalAbs (x : Interval) : Except Failure Interval :=
  match intervalRangeInfo x 0 with
  | some .plus => .ok x
  | some .minus => .ok (intervalNeg x)
  | none => merged (intervalNeg (intervalSplit 0 x true true).1) (intervalSplit 0 x true true).2

def intervalSqr (x : Interval) : Except Failure Interval := do
  return intervalFunc (fun n => n * n) (← intervalAbs x)

end Sbcl.Compiler
