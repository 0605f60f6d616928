import Sbcl.Compiler.BitopsDeriveType
import Sbcl.Compiler.DeriveType

/-!
# Derived types of shifts, lengths, counts and fields (compiler/srctran.lisp)

* `ashDeriveTypeAux` : the type of a shift, with no bound where it would be shifted out beyond the
  cutoff;
* `integerLengthDeriveType`, `logcountDeriveType` : the ranges of the lengths and the counts of a
  type;
* `ldbComputed`, `dpbComputed`, `depositFieldDeriveType` : a field by shifts and masks;
* `ldbDeriveType`, `dpbDeriveType` : the same, and what is known of a byte `(byte size (- a size))`.
-/

namespace Sbcl.Compiler

open Option

/-! ## Shifts -/

def mostNegativeFixnum : ℤ := -2 ^ 62

/-- `fixnump`, of a bound that can be absent. -/
def fixnump (s : ℤ) : Prop := mostNegativeFixnum ≤ s ∧ s < 2 ^ 62

instance (s : ℤ) : Decidable (fixnump s) := inferInstanceAs (Decidable (_ ∧ _))

def leftShiftDeriveTypeCutoff : ℤ := 256

/-- `ash-outer`: a bound shifted away from zero. -/
def ashOuter (n : ℤ) (s : Option ℤ) : Option ℤ := do
  let s ← s
  if fixnump s ∧ s ≤ leftShiftDeriveTypeCutoff ∧ s > mostNegativeFixnum then ash n s else none

/-- `ash-inner`: a bound shifted towards zero. -/
def ashInner (n : ℤ) (s : Option ℤ) : ℤ :=
  match s with
  | some s =>
    if fixnump s ∧ s > mostNegativeFixnum then ash n (min s leftShiftDeriveTypeCutoff)
    else if n < 0 then -1 else 0
  | none => if n < 0 then -1 else 0

/-- `make`. -/
def ashMake (nLow nHigh sLow sHigh : Option ℤ) : Ctype :=
  specifierInteger (nLow.bind fun nLow =>
    if nLow < 0 then ashOuter nLow sHigh else some (ashInner nLow sLow))
    (nHigh.bind fun nHigh => if nHigh < 0 then some (ashInner nHigh sLow) else ashOuter nHigh sHigh)

/-- `(eql 0)`. -/
def eqlZero : Ctype := specifierInteger (some 0) (some 0)

def ashDeriveTypeAux (nType shift : IntegerType) : Ctype :=
  let nLow := nType.low
  let nHigh := nType.high
  let sLow := shift.low
  let sHigh := shift.high
  if nLow = some 0 then eqlZero ++ ashMake (some 1) nHigh sLow sHigh
  else if nHigh = some 0 then eqlZero ++ ashMake nLow (some (-1)) sLow sHigh
  else if (∀ l ∈ nLow, l < 0) ∧ ∀ h ∈ nHigh, 0 < h then
    ashMake nLow (some (-1)) sLow sHigh ++ eqlZero ++ ashMake (some 1) nHigh sLow sHigh
  else ashMake nLow nHigh sLow sHigh

theorem lognot_valid (int : IntegerType) : ∀ l ∈ int.high.map lognot,
    ∀ h ∈ int.low.map lognot, l ≤ h := by
  intro l hl h hh
  obtain ⟨hi, hhi, rfl⟩ := map_eq_some_iff.1 hl
  obtain ⟨lo, hlo, rfl⟩ := map_eq_some_iff.1 hh
  have := int.valid lo hlo hi hhi
  simp only [lognot, IntBits.lnot_eq]
  omega

def lognotDeriveTypeAux (int : IntegerType) : IntegerType where
  low := int.high.map lognot
  high := int.low.map lognot
  valid := lognot_valid int

def negateDeriveTypeAux (type : IntegerType) : IntegerType where
  low := type.high.map (- ·)
  high := type.low.map (- ·)
  valid l hl h hh := by
    obtain ⟨hi, hhi, rfl⟩ := map_eq_some_iff.1 hl
    obtain ⟨lo, hlo, rfl⟩ := map_eq_some_iff.1 hh
    exact neg_le_neg (type.valid lo hlo hi hhi)

/-! ## Lengths and counts -/

/-- The optimizer of `integer-length`, on a member of the type. -/
def integerLengthDeriveType (xType : IntegerType) : Option Ctype :=
  match xType.low, xType.high with
  | some lo, some hi =>
    some (specifierInteger
      (some (if lo ≤ 0 ∧ 0 ≤ hi then 0 else (min (integerLength lo) (integerLength hi) : ℕ)))
      (some (max (integerLength lo) (integerLength hi) : ℕ)))
  | some lo, none => if lo > 0 then some (specifierInteger (some (integerLength lo)) none) else none
  | none, some hi => if hi < 0 then some (specifierInteger (some (integerLength hi)) none) else none
  | none, none => none

/-- The variables of `logcount`'s optimizer after its lower bound was computed, and that bound. -/
structure CountBounds where
  low : ℤ
  adjust : ℤ
  lo : ℤ
  hi : ℤ

/-- The second clause on, for bounds that are not negative. -/
def countBoundsAux (lo hi : ℤ) : CountBounds :=
  if integerLength lo = integerLength hi then
    -- the bits that are always the same are counted once
    let firstDiff := integerLength (logxor lo hi)
    let adjust := logcount (ash lo (-firstDiff))
    let lo' := ldb firstDiff 0 lo
    ⟨adjust + (if lo' = 0 then 0 else 1), adjust, lo', ldb firstDiff 0 hi⟩
  else if lo = 0 then ⟨0, 0, lo, hi⟩
  else ⟨1, 0, lo, hi⟩

def countBounds (lo hi : ℤ) : CountBounds :=
  if lo ≤ 0 ∧ 0 ≤ hi then ⟨0, 0, lo, hi⟩
  else if lo < 0 then countBoundsAux (lognot hi) (lognot lo)
  else countBoundsAux lo hi

/-- The upper bound of the counts from `lo` to `hi`. -/
def countHigh (lo hi : ℤ) : ℤ :=
  let l := max (integerLength lo) (integerLength hi)
  -- only one number can have all the bits turned on
  l + if hi = ash 1 l - 1 ∨ lo = ash (-1) l then 0 else -1

/-- The optimizer of `logcount`, on a member of the type. -/
def logcountDeriveType (xType : IntegerType) : Option Ctype :=
  match xType.low, xType.high with
  | some lo, some hi =>
    let b := countBounds lo hi
    some (specifierInteger (some b.low) (some (b.adjust + countHigh b.lo b.hi)))
  | some lo, none => if lo > 0 then some (specifierInteger (some 1) none) else none
  | none, some hi => if hi < -1 then some (specifierInteger (some 1) none) else none
  | none, none => none

/-! ## Fields -/

def Integer.depositField (newbyte : ℤ) (size posn : ℕ) (integer : ℤ) : ℤ :=
  let mask := ash (ldb size 0 (-1)) posn
  logior (logand newbyte mask) (logand integer (lognot mask))

/-- `(eql -1)`. -/
def minusOne : IntegerType := ⟨some (-1), some (-1), by simp⟩

def ashAux (n shift : IntegerType) (_sameArg : Bool) : Option Ctype :=
  some (ashDeriveTypeAux n shift)

def logandAux (x y : IntegerType) (sameLeaf : Bool) : Option Ctype :=
  (logandDeriveTypeAux x y sameLeaf).map Derived.type

def logiorAux (x y : IntegerType) (sameLeaf : Bool) : Option Ctype :=
  (logiorDeriveTypeAux x y sameLeaf).map Derived.type

/-- The type of `(lognot (ash -1 size))`. -/
def maskDeriveType (size : IntegerType) : Ctype :=
  (ashDeriveTypeAux minusOne size).map lognotDeriveTypeAux

/-- The type of `(logandc2 int mask)`. -/
def logandc2DeriveType (int mask : IntegerType) (_same : Bool) : Option Ctype :=
  twoArgDeriveType [int] [lognotDeriveTypeAux mask] logandAux false

/-- `type-approximate-interval`, of a union of ranges. -/
def typeApproximateInterval (type : Ctype) : Option IntegerType := (weakenNumericUnion type).head?

/-- `related-byte-spec`, for the type of `a` where the position is `(- a size)`. -/
def relatedByteSpec (a : Option Ctype) : Option IntegerType := do
  let int ← typeApproximateInterval (← a)
  if int.high.isSome then int else none

/-- `type-intersection`; the universal type is `none`. -/
def typeIntersection (s : Ctype) (t : Option Ctype) : Ctype :=
  match t with
  | none => s
  | some t => s.flatMap fun x => t.flatMap fun y =>
    specifierInteger (Option.merge max x.low y.low) (Option.merge min x.high y.high)

/-- `(logand (ash num (- posn)) (lognot (ash -1 size)))`. -/
def ldbComputed (size posn num : Ctype) (sameLeaf : Bool) : Option Ctype := do
  let shifted ← twoArgDeriveType num posn (fun num posn _ =>
    some (ashDeriveTypeAux num (negateDeriveTypeAux posn))) sameLeaf
  let mask ← oneArgDeriveType size fun x => some (maskDeriveType x)
  twoArgDeriveType shifted mask logandAux false

/-- The optimizer of `%ldb`; `sameLeaf` is of `num` and `posn`, and `a` is as in
`related-byte-spec`. -/
def ldbDeriveType (size posn num : Ctype) (sameLeaf : Bool) (a : Option Ctype) : Option Ctype :=
  let computed := ldbComputed size posn num sameLeaf
  match (relatedByteSpec a).bind IntegerType.high with
  | some high =>
    if high ≤ leftShiftDeriveTypeCutoff then
      some (typeIntersection (specifierInteger (some 0) (some (ash 1 high - 1))) computed)
    else computed
  | none => computed

/-- `(logior (logandc2 int (ash mask posn)) (ash (logand mask newbyte) posn))`, where `mask` is
`(lognot (ash -1 size))`. -/
def dpbComputed (newbyte size posn int : Ctype) : Option Ctype := do
  let mask ← oneArgDeriveType size fun x => some (maskDeriveType x)
  let maskShifted ← twoArgDeriveType mask posn ashAux false
  let int ← twoArgDeriveType int maskShifted logandc2DeriveType false
  let newMasked ← twoArgDeriveType mask newbyte logandAux false
  let new ← twoArgDeriveType newMasked posn ashAux false
  twoArgDeriveType int new logiorAux false

/-- The bounds of the type of the integer and of `a`, where `%dpb` uses them. -/
def dpbRelated (size int : Ctype) (a : Option Ctype) : Option (ℤ × ℤ) := do
  let intInterval ← typeApproximateInterval int
  let low ← intInterval.low
  let high ← intInterval.high
  if 0 ≤ low then
    let posnMinuendInterval ← relatedByteSpec a
    let _ ← typeApproximateInterval size
    return (high, ← posnMinuendInterval.high)
  else none

inductive ShiftError where
  /-- "can't represent result of left shift" -/
  | unrepresentable
deriving DecidableEq

/-- The number of the digits of `(ash 1 count)` in `bignum-ashift-left-fixnum`: where the highest
bit of a digit is set, there is one more for the sign. -/
def ashOneLength (count : ℤ) : ℤ := count / 64 + if count % 64 = 63 then 2 else 1

def maximumAshLength : ℤ := 0xFFFFFFFF

/-- `(ash 1 count)`, for a count without a cutoff. -/
def ashOne (count : ℤ) : Except ShiftError ℤ :=
  if ashOneLength count > maximumAshLength then .error .unrepresentable else .ok (ash 1 count)

/-- The optimizer of `%dpb`. -/
def dpbDeriveType (newbyte size posn int : Ctype) (a : Option Ctype) :
    Except ShiftError (Option Ctype) :=
  let computed := dpbComputed newbyte size posn int
  match dpbRelated size int a with
  | some (intHigh, minuendHigh) => do
    let power ← ashOne minuendHigh
    return some (typeIntersection
      (specifierInteger (some 0) (some (max intHigh (power - 1)))) computed)
  | none => .ok computed

/-- `(logior (logandc2 int mask) (logand mask newbyte))`, where `mask` is `(ash (lognot (ash -1
size)) posn)`. -/
def depositFieldDeriveType (newbyte size posn int : Ctype) (sameLeaf : Bool) : Option Ctype := do
  let mask ← twoArgDeriveType size posn (fun size posn _ =>
    some ((maskDeriveType size).flatMap fun m => ashDeriveTypeAux m posn)) sameLeaf
  let int ← twoArgDeriveType int mask logandc2DeriveType false
  let new ← twoArgDeriveType mask newbyte logandAux false
  twoArgDeriveType int new logiorAux false

end Sbcl.Compiler
