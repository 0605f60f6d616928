import Mathlib.Data.Rat.Floor

/-!
# Sets of rationals as vectors of ranges (code/type.lisp)

* `Bound`, `Triple` : the bounds and the runs of a range vector;
* `lowLeLowP`, `flipExclusion`, `maxLowRational`, .. : the arithmetic of the bounds;
* `storeRationalRange` : joins a range to the last ones of a result;
* `unionRational`, `intersectRational`, `differenceRational`, `subtypeRational`, `typepRational`,
  `typepInteger`.

A vector of (run low high ..) is the list of its triples, and a result, which is pushed to, has the
last triple first. Where the code would do arithmetic on an absent bound the value is none.
-/

namespace Sbcl.RationalRange

/-- An integer of two bits, for the integers and for the ratios. -/
abbrev Run := BitVec 2

def rangeIntegerRun : Run := 1

def rangeRatioRun : Run := 2

def rangeRationalRun : Run := 3

/-- `(logtest run1 run2)`. -/
def logtest (run1 run2 : Run) : Bool := run1 &&& run2 ≠ 0

/-- A bound is absent, a number, or a list of a number that it excludes. -/
inductive Bound where
  | absent
  | closed (x : ℚ)
  | opened (x : ℚ)
deriving DecidableEq

structure Triple where
  run : Run
  low : Bound
  high : Bound
deriving DecidableEq

namespace Bound

/-- `(if (consp x) (car x) x)`. -/
def number : Bound → Option ℚ
  | absent => none
  | closed x => some x
  | opened x => some x

def consp : Bound → Bool
  | opened _ => true
  | _ => false

/-- The bound is an integer. -/
def integerp : Bound → Bool
  | closed x => x.isInt
  | _ => false

end Bound

/-! ## Bounds -/

def lowLeLowP : Bound → Bound → Bool
  | .absent, _ => true
  | _, .absent => false
  | .opened a, .opened b => a ≤ b
  | .opened a, .closed b => a < b
  | .closed a, .opened b => a ≤ b
  | .closed a, .closed b => a ≤ b

def highGeHighP : Bound → Bound → Bool
  | .absent, _ => true
  | _, .absent => false
  | .opened a, .opened b => b ≤ a
  | .opened a, .closed b => b < a
  | .closed a, .opened b => b ≤ a
  | .closed a, .closed b => b ≤ a

def highGtHighP : Bound → Bound → Bool
  | .absent, b => b ≠ .absent
  | _, .absent => false
  | .opened a, .opened b => b < a
  | .closed a, .opened b => b ≤ a
  | .opened a, .closed b => b < a
  | .closed a, .closed b => b < a

def lowGtHighP : Bound → Bound → Bool
  | .absent, _ => false
  | _, .absent => false
  | .opened a, .opened b => b ≤ a
  | .opened a, .closed b => b ≤ a
  | .closed a, .opened b => b ≤ a
  | .closed a, .closed b => b < a

/-- The next bound of the other side that excludes what the bound includes, and includes what it
excludes. -/
def flipExclusion (x : Bound) (positive : Bool) (run : Run) : Option Bound :=
  match x with
  | .absent => none
  | .closed x => some <|
      if run = rangeIntegerRun then
        if x.isInt then .closed (if positive then x + 1 else x - 1)
        else .closed (if positive then ⌈x⌉ else ⌊x⌋ : ℤ)
      else .opened x
  | .opened x => some <|
      if run = rangeIntegerRun then .closed (if positive then ⌈x⌉ else ⌊x⌋ : ℤ)
      else if run = rangeRatioRun ∧ x.isInt then .opened x else .closed x

def flipExclusion2 (currentX x : Bound) (positive : Bool) (run : Run) (low : Bool) :
    Option Bound := do
  let result ← flipExclusion x positive run
  return if (if low then lowLeLowP result currentX else highGeHighP result currentX) then
    currentX else result

def minRationalLow (low : Bound) (run : Run) (rationalLow : Bound) : Option Bound :=
  if lowLeLowP rationalLow low then some rationalLow
  else if run = rangeIntegerRun then
    some <| match rationalLow with
      | .opened x => if x.isInt then .closed x else .opened x
      | other => other
  else
    match rationalLow.number with
    | none => none
    | some x =>
      let newLow := Bound.opened (if rationalLow.integerp then x - 1 else (⌊x⌋ : ℤ))
      some (if lowLeLowP newLow low then low else newLow)

def maxRationalHigh (high : Bound) (run : Run) (rationalHigh : Bound) : Option Bound :=
  if highGeHighP rationalHigh high then some rationalHigh
  else if run = rangeIntegerRun then
    some <| match rationalHigh with
      | .opened x => if x.isInt then .closed x else .opened x
      | other => other
  else
    match rationalHigh.number with
    | none => none
    | some x =>
      let newHigh := Bound.opened (if rationalHigh.integerp then x + 1 else (⌈x⌉ : ℤ))
      some (if highGeHighP newHigh high then high else newHigh)

/-- The later of two low bounds, and the one before it where no integer is between them. -/
def laterLow (max min : Bound) : Bound :=
  match max with
  | .absent => .absent
  | .opened x => if x.isInt then .closed x else .opened x
  | .closed x =>
    if x.isInt then
      match min.number with
      | none => .opened (x - 1)
      | some y => if 1 + ⌊y⌋ = x then min else .opened (x - 1)
    else .closed x

def maxLowRational (low1 low2 : Bound) : Bound :=
  if lowLeLowP low1 low2 then laterLow low2 low1 else laterLow low1 low2

/-- The earlier of two high bounds, and the one after it where no integer is between them. -/
def earlierHigh (max min : Bound) : Bound :=
  match min with
  | .absent => .absent
  | .opened x => if x.isInt then .closed x else .opened x
  | .closed x =>
    if x.isInt then
      match max.number with
      | none => .opened (x + 1)
      | some y => if ⌈y⌉ - 1 = x then max else .opened (x + 1)
    else .closed x

def minHighRational (high1 high2 : Bound) : Bound :=
  if highGeHighP high1 high2 then earlierHigh high1 high2 else earlierHigh high2 high1

def coerceRationalBound (x : Bound) (low : Bool) (run : Run) : Bound :=
  match x with
  | .absent => .absent
  | .opened x =>
    if run = rangeIntegerRun then .closed (if low then ⌊1 + x⌋ else ⌈x - 1⌉ : ℤ)
    else .opened x
  | .closed x =>
    if run = rangeIntegerRun then .closed (if low then ⌈x⌉ else ⌊x⌋ : ℤ)
    else if run = rangeRatioRun ∧ x.isInt then .opened x else .closed x

def collapseRationalRun (run : Run) (low high : Bound) : Run :=
  match low.number, high.number with
  | some x, some y =>
    if run ≠ rangeRationalRun then run
    else if low.integerp then if low = high then rangeIntegerRun else run
    else if low.consp ∧ high.consp ∧ x.isInt ∧ x + 1 = y ∨ ¬ high.integerp ∧ ⌈y⌉ - ⌊x⌋ = 1 then
      rangeRatioRun
    else run
  | _, _ => run

/-! ## Storing a range -/

/-- `join-p`: no element of the runs is left out between the two ranges. -/
def joinP (leftHigh : Bound) (leftRun : Run) (rightLow : Bound) (rightRun : Run) : Option Bool :=
  match rightLow, leftHigh with
  | .absent, _ => some true
  | _, .absent => some true
  | rightLow, leftHigh =>
    if leftRun ||| rightRun = rangeIntegerRun then
      match rightLow, leftHigh with
      | .closed low, .closed high => some (low ≤ high + 1)
      | _, _ => none
    else do
      let openLeftHigh ← leftHigh.number
      let openRightLow ← rightLow.number
      return if ¬ (rightRun = leftRun ∧ leftRun = rangeRatioRun ∧ openRightLow.isInt) ∧
        leftHigh.consp ∧ rightLow.consp
        then openRightLow < openLeftHigh else openRightLow ≤ openLeftHigh

/-- The last range begins at the bound, unless it is now joinable to a rational range before it. -/
def toPreceding (rest : List Triple) (rationalLow rationalHigh : Bound) (newRun : Run) :
    Option (List Triple) :=
  match rest with
  | [] => some [⟨newRun, rationalLow, rationalHigh⟩]
  | prev :: before =>
    if prev.run = rangeRationalRun then do
      if ← joinP prev.high rangeRationalRun rationalLow rangeRationalRun then
        return { prev with high := rationalHigh } :: before
      else return ⟨newRun, rationalLow, rationalHigh⟩ :: prev :: before
    else some (⟨newRun, rationalLow, rationalHigh⟩ :: prev :: before)

/-- The part of the last range before the bound, and the range that begins there. -/
def splitLast (last : Triple) (rest : List Triple) (rationalLow rationalHigh : Bound)
    (newRun : Run) : Option (List Triple) := do
  if lowLeLowP rationalLow last.low then toPreceding rest rationalLow rationalHigh newRun
  else
    let high ← flipExclusion rationalLow false last.run
    return ⟨newRun, rationalLow, rationalHigh⟩ :: { last with high := high } :: rest

/-- The part of a range after the bound. -/
def pushRemainder (run : Run) (rationalHigh high : Bound) (result : List Triple) :
    Option (List Triple) := do
  let low ← flipExclusion rationalHigh true run
  return ⟨run, low, high⟩ :: result

/-- A rational range meets an integer or a ratio range. -/
def storeRational (low high : Bound) (last : Triple) (rest : List Triple) :
    Option (List Triple) := do
  let rationalLow ← minRationalLow last.low last.run low
  let rationalHigh ← maxRationalHigh last.high last.run high
  let result ← splitLast last rest rationalLow rationalHigh rangeRationalRun
  if highGtHighP last.high rationalHigh then pushRemainder last.run rationalHigh last.high result
    else return result

/-- An integer or a ratio range meets a rational range. -/
def storeToRational (high : Bound) (run : Run) (last : Triple) (rest : List Triple) :
    Option (List Triple) := do
  let rationalHigh ← maxRationalHigh high run last.high
  let result := { last with high := rationalHigh } :: rest
  if highGeHighP rationalHigh high then return result
    else pushRemainder run rationalHigh high result

/-- Integers and ratios meet, and the overlap is rational. -/
def storeMix (low high : Bound) (run : Run) (last : Triple) (rest : List Triple) :
    Option (List Triple) := do
  let rationalLow := maxLowRational last.low low
  let rationalHigh := minHighRational last.high high
  let newRun := collapseRationalRun rangeRationalRun rationalLow rationalHigh
  let result ← splitLast last rest rationalLow rationalHigh newRun
  if highGtHighP last.high rationalHigh then pushRemainder last.run rationalHigh last.high result
  else if highGtHighP high rationalHigh then pushRemainder run rationalHigh high result
  else return result

/-- A range that is not empty, with its collapsed run, after the last ones. -/
def storeRange (low high : Bound) (run : Run) (result : List Triple) : Option (List Triple) :=
  match result with
  | [] => some [⟨run, low, high⟩]
  | last :: rest => do
      if ← joinP last.high last.run low run then
        if last.run = run then
          return { last with high := if highGtHighP last.high high then last.high else high } ::
            rest
        else if run = rangeRationalRun then storeRational low high last rest
        else if last.run = rangeRationalRun then storeToRational high run last rest
        else storeMix low high run last rest
      else return ⟨run, low, high⟩ :: last :: rest

/-- The bounds leave no number between them. -/
def emptyRange (low high : Bound) : Bool :=
  lowGtHighP low high ||
    match low, high with
    | .opened x, high => high.number = some x
    | low, .opened y => low = .closed y
    | _, _ => false

def storeRationalRange (low high : Bound) (run mask : Run) (result : List Triple) :
    Option (List Triple × Run) :=
  if emptyRange low high then some (result, mask)
  else do
    let run := collapseRationalRun run low high
    return (← storeRange low high run result, mask ||| run)

/-! ## The operations -/

abbrev Result := List Triple × Run

def store (triple : Triple) (acc : Result) : Option Result :=
  storeRationalRange triple.low triple.high triple.run acc.2 acc.1

/-- The rest of a vector. -/
def storeAll (ranges : List Triple) (acc : Result) : Option Result :=
  ranges.foldlM (fun acc triple => store triple acc) acc

/-- `(coerce (reverse result) 'vector)`, and the mask. -/
def toVector (acc : Result) : Result := (acc.1.reverse, acc.2)

def unionLoop : List Triple → List Triple → Result → Option Result
  | [], ranges2, acc => storeAll ranges2 acc
  | triple1 :: ranges1, [], acc => storeAll (triple1 :: ranges1) acc
  | triple1 :: ranges1, triple2 :: ranges2, acc =>
    if lowLeLowP triple1.low triple2.low then
      match store triple1 acc with
      | none => none
      | some acc => unionLoop ranges1 (triple2 :: ranges2) acc
    else
      match store triple2 acc with
      | none => none
      | some acc => unionLoop (triple1 :: ranges1) ranges2 acc
termination_by ranges1 ranges2 => ranges1.length + ranges2.length

def unionRational (ranges1 ranges2 : List Triple) : Option Result :=
  toVector <$> unionLoop ranges1 ranges2 ([], 0)

/-- The common part of two triples that meet. -/
def common (triple1 triple2 : Triple) : Triple :=
  let newRun := triple1.run &&& triple2.run
  { run := newRun
    low := coerceRationalBound (if lowLeLowP triple1.low triple2.low then triple2.low
      else triple1.low) true newRun
    high := coerceRationalBound (if highGeHighP triple1.high triple2.high then triple2.high
      else triple1.high) false newRun }

def intersectLoop : List Triple → List Triple → Result → Option Result
  | [], _, acc => some acc
  | _ :: _, [], acc => some acc
  | triple1 :: ranges1, triple2 :: ranges2, acc =>
    if ¬ logtest triple1.run triple2.run then
      if highGtHighP triple2.high triple1.high then intersectLoop ranges1 (triple2 :: ranges2) acc
      else intersectLoop (triple1 :: ranges1) ranges2 acc
    else if lowGtHighP triple2.low triple1.high then intersectLoop ranges1 (triple2 :: ranges2) acc
    else if lowGtHighP triple1.low triple2.high then intersectLoop (triple1 :: ranges1) ranges2 acc
    else
      match store (common triple1 triple2) acc with
      | none => none
      | some acc =>
        if highGtHighP triple2.high triple1.high then intersectLoop ranges1 (triple2 :: ranges2) acc
        else intersectLoop (triple1 :: ranges1) ranges2 acc
termination_by ranges1 ranges2 => ranges1.length + ranges2.length

def intersectRational (ranges1 ranges2 : List Triple) : Option Result :=
  toVector <$> intersectLoop ranges1 ranges2 ([], 0)

/-- The part of a range that is in another run, in the bounds of both. -/
def overlap (overlapRun : Run) (low high : Bound) : Triple :=
  { run := overlapRun
    low := coerceRationalBound low true overlapRun
    high := coerceRationalBound high false overlapRun }

/-- The part of a range before a bound. -/
def storeBefore (triple : Triple) (low2 : Bound) (acc : Result) : Option Result := do
  store { triple with high := ← flipExclusion low2 false triple.run } acc

/-- The inner loop for one triple of the first vector, with the rest of the second vector that it
leaves. -/
def differenceTriple (triple : Triple) : List Triple → Result → Option (List Triple × Result)
  | [], acc => do return ([], ← store triple acc)
  | triple2 :: ranges2, acc =>
    if lowGtHighP triple2.low triple.high then do return (triple2 :: ranges2, ← store triple acc)
    else if lowGtHighP triple.low triple2.high then differenceTriple triple ranges2 acc
    else
      let bottom := lowLeLowP triple2.low triple.low
      let top := highGeHighP triple2.high triple.high
      let overlapRun := triple.run &&& ~~~triple2.run
      if overlapRun = 0 then
        if top && bottom then some (triple2 :: ranges2, acc)
        else if top then do
          return (triple2 :: ranges2, ← storeBefore triple triple2.low acc)
        else if bottom then
          match flipExclusion2 triple.low triple2.high true triple.run true with
          | none => none
          | some low => differenceTriple { triple with low := low } ranges2 acc
        else
          match storeBefore triple triple2.low acc, flipExclusion triple2.high true triple.run with
          | some acc, some low => differenceTriple { triple with low := low } ranges2 acc
          | _, _ => none
      else
        if top && bottom then do
          return (triple2 :: ranges2, ← store (overlap overlapRun triple.low triple.high) acc)
        else if top then do
          return (triple2 :: ranges2,
            ← store (overlap overlapRun triple2.low triple.high)
            (← storeBefore triple triple2.low acc))
        else if bottom then
          match store (overlap overlapRun triple.low triple2.high) acc,
            flipExclusion2 triple.low triple2.high true triple.run true with
          | some acc, some low => differenceTriple { triple with low := low } ranges2 acc
          | _, _ => none
        else
          match (storeBefore triple triple2.low acc).bind
            (store (overlap overlapRun triple2.low triple2.high)),
            flipExclusion triple2.high true triple.run with
          | some acc, some low => differenceTriple { triple with low := low } ranges2 acc
          | _, _ => none

def differenceLoop : List Triple → List Triple → Result → Option Result
  | [], _, acc => some acc
  | triple1 :: ranges1, [], acc => storeAll (triple1 :: ranges1) acc
  | triple1 :: ranges1, ranges2, acc =>
    match differenceTriple triple1 ranges2 acc with
    | none => none
    | some (ranges2, acc) => differenceLoop ranges1 ranges2 acc

def differenceRational (ranges1 ranges2 : List Triple) : Option Result :=
  toVector <$> differenceLoop ranges1 ranges2 ([], 0)

/-- The inner loop for one triple of the first vector: the rest of the second vector, or none where
the function returns false. -/
def subtypeTriple (triple : Triple) : List Triple → Option (Option (List Triple))
  | [] => some none
  | triple2 :: ranges2 =>
    if lowGtHighP triple2.low triple.high then some none
    else if lowGtHighP triple.low triple2.high then subtypeTriple triple ranges2
    else if ¬ (logtest triple.run triple2.run ∧ triple.run ≤ triple2.run) then some none
    else if ¬ lowLeLowP triple2.low triple.low then some none
    else if highGeHighP triple2.high triple.high then some (some (triple2 :: ranges2))
    else
      match flipExclusion triple2.high true triple.run with
      | none => none
      | some low => subtypeTriple { triple with low := low } ranges2

def subtypeRational : List Triple → List Triple → Option Bool
  | [], _ => some true
  | triple1 :: ranges1, ranges2 =>
    match subtypeTriple triple1 ranges2 with
    | none => none
    | some none => some false
    | some (some ranges2) => subtypeRational ranges1 ranges2

def typepRational (rational : ℚ) (run : Run) : List Triple → Bool
  | [] => false
  | triple :: ranges =>
    if lowGtHighP triple.low (.closed rational) then false
    else if lowGtHighP (.closed rational) triple.high then typepRational rational run ranges
    else logtest run triple.run

/-- `typep-integer`, of bounds that are numbers or absent. -/
def typepInteger (rational : ℚ) : List Triple → Option Bool
  | [] => some false
  | triple :: ranges =>
    let belowHigh := match triple.high with
      | .opened _ => none
      | .absent => some true
      | .closed high => if high < rational then typepInteger rational ranges else some true
    match triple.low with
    | .opened _ => none
    | .absent => belowHigh
    | .closed low => if rational < low then some false else belowHigh

end Sbcl.RationalRange
