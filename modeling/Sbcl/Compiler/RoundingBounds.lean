import Mathlib.Data.Rat.Floor
import Sbcl.Compiler.DeriveType
import Sbcl.Compiler.Interval

/-!
# Bounds of quotients and remainders (compiler/srctran.lisp)

* `floorQuotientBound`, `ceilingQuotientBound`, `truncateQuotientBound` : the integers that the
  members of an interval are rounded to;
* `floorRemBound`, `ceilingRemBound`, `truncateRemBound` : the remainders of a number in an interval
  and a divisor in another;
* `numericUnionInfo`, `integerTruncateDeriveType` : the quotient of two integers.

The numbers are rational; `*conservative-quotient-bound*` is about floats only.
-/

namespace Sbcl.Compiler

open Intervals

/-- `floor` of an upper bound; a strict one that is an integer is not reached. -/
def floorHigh (hi : Bound) : ℤ :=
  if hi.isStrict then
    let q := ⌊hi.value⌋
    let r := hi.value - q
    if r = 0 then q - 1 else q
  else ⌊hi.value⌋

/-- `ceiling` of a lower bound; a strict one that is an integer is not reached. -/
def ceilingLow (lo : Bound) : ℤ :=
  if lo.isStrict then
    let q := ⌈lo.value⌉
    let r := lo.value - q
    if r = 0 then q + 1 else q
  else ⌈lo.value⌉

def floorQuotientBound (quot : Interval) : Interval :=
  ⟨quot.low.map fun lo => .closed ⌊lo.value⌋, quot.high.map fun hi => .closed (floorHigh hi)⟩

def ceilingQuotientBound (quot : Interval) : Interval :=
  ⟨quot.low.map fun lo => .closed (ceilingLow lo), quot.high.map fun hi => .closed ⌈hi.value⌉⟩

def truncateQuotientBound (quot : Interval) : Except Failure Interval :=
  match intervalRangeInfo quot 0 with
  | some .plus => .ok (floorQuotientBound quot)
  | some .minus => .ok (ceilingQuotientBound quot)
  | none =>
    let (neg, pos) := intervalSplit 0 quot true true
    merged (ceilingQuotientBound neg) (floorQuotientBound pos)

/-! ## Remainders -/

/-- A remainder that is not negative, from the absolute values of the divisor: it does not reach the
largest of them, and is no greater than the number. With `zerop` a limit of zero is left as it is.
-/
def nonnegRem (zerop : Bool) (num abs : Interval) : Interval :=
  let limit := match abs.high with
    | some (.closed h) => if zerop ∧ h = 0 then some (.closed h) else some (.strict h)
    | high => high
  let rem : Interval := ⟨some (.closed 0), limit⟩
  match num.high with
  | some (.closed h) =>
    if intervalRangeInfo num 0 = some .plus ∧ intervalContainsP h rem then ⟨some (.closed 0),
      some (.closed h)⟩ else rem
  | _ => rem

/-- The same for a remainder that is not positive, from their negatives. -/
def nonposRem (zerop : Bool) (num negAbs : Interval) : Interval :=
  let limit := match negAbs.low with
    | some (.closed l) => if zerop ∧ l = 0 then some (.closed l) else some (.strict l)
    | low => low
  let rem : Interval := ⟨limit, some (.closed 0)⟩
  match num.low with
  | some (.closed l) =>
    if intervalRangeInfo num 0 = some .minus ∧ intervalContainsP l rem then ⟨some (.closed l),
      some (.closed 0)⟩ else rem
  | _ => rem

/-- The clause for a divisor of either sign. -/
def eitherRem (div : Interval) : Except Failure Interval := do
  let limit := typeBoundNumber (← intervalAbs div).high
  return ⟨limit.map fun l => .strict (-l), limit.map .strict⟩

def floorRemBound (num div : Interval) : Except Failure Interval :=
  match intervalRangeInfo div 0 with
  | some .plus => do return nonnegRem true num (← intervalAbs div)
  | some .minus => do return nonposRem false num (intervalNeg (← intervalAbs div))
  | none => eitherRem div

def ceilingRemBound (num div : Interval) : Except Failure Interval :=
  match intervalRangeInfo div 0 with
  | some .plus => do return nonposRem true num (intervalNeg (← intervalAbs div))
  | some .minus => do return nonnegRem false num (← intervalAbs div)
  | none => eitherRem div

def truncateRemBound (num div : Interval) : Except Failure Interval :=
  if intervalRangeInfo num 0 = none then do
    merged (← truncateRemBound (intervalSplit 0 num true true).1 div)
      (← truncateRemBound (intervalSplit 0 num true true).2 div)
  else if intervalRangeInfo div 0 = none then do
    merged (← truncateRemBound num (intervalSplit 0 div true true).1)
      (← truncateRemBound num (intervalSplit 0 div true true).2)
  else if intervalRangeInfo num 0 = intervalRangeInfo div 0 then floorRemBound num div
  else ceilingRemBound num div
termination_by signRank num + signRank div
decreasing_by
  · exact Nat.add_lt_add_right (signRank_split_left ‹_›) _
  · exact Nat.add_lt_add_right (signRank_split_right ‹_›) _
  · exact Nat.add_lt_add_left (signRank_split_left ‹_›) _
  · exact Nat.add_lt_add_left (signRank_split_right ‹_›) _

/-- The sign of a range, and its least and its largest absolute value, where there is one. -/
def numericUnionInfo (low high : Option ℤ) : Option Sign × ℤ × Option ℤ :=
  match low.filter (0 ≤ ·), high.filter (· ≤ 0) with
  | some low, _ => (some .plus, low, high)
  | none, some high => (some .minus, -high, low.map (- ·))
  | none, none => (none, 0, do return max (-(← low)) (← high))

/-- The type of the quotient; nothing is said of a division by zero. -/
def integerTruncateDeriveType (numberLow numberHigh divisorLow divisorHigh : Option ℤ) :
    Option Ctype :=
  let (numberSign, numberMin, numberMax) := numericUnionInfo numberLow numberHigh
  let (divisorSign, divisorMin, divisorMax) := numericUnionInfo divisorLow divisorHigh
  if divisorMax = some 0 then none
  else
    let divisorMin := if divisorMin = 0 then divisorMin + 1 else divisorMin
    some <| match numberSign, divisorSign with
      | some s, some t =>
        if s = t then
          specifierInteger (some ((divisorMax.map fun max => truncate numberMin max).getD 0))
            (numberMax.map fun max => truncate max divisorMin)
        else
          specifierInteger (numberMax.map fun max => -truncate max divisorMin)
            (some ((divisorMax.map fun max => -truncate numberMin max).getD 0))
      | none, some .plus =>
        specifierInteger (numberLow.map fun low => truncate low divisorMin)
          (numberHigh.map fun high => truncate high divisorMin)
      | none, some .minus =>
        specifierInteger (numberHigh.map fun high => -truncate high divisorMin)
          (numberLow.map fun low => -truncate low divisorMin)
      | _, none =>
        match numberMax with
        | some max =>
          let bound := truncate max divisorMin
          specifierInteger (some (-bound)) (some bound)
        | none => specifierInteger none none

end Sbcl.Compiler
