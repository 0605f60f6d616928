import Sbcl.Bignum.Logic
import Sbcl.Compiler.Interval
import Sbcl.Compiler.Modarith

/-!
# Masks and shifts of calls (compiler/modarith.lisp)

* `logandConstantTransform`, `logandTransform` : the transforms of `logand`, which narrow or drop a
  constant under a mask;
* `ashTransform` : the transform of an `ash` of an `ash`, or of a modular one;
* `ashIntoWordSmall`, `ashIntoWordLarge`, `ashIntoWordVariable` : the transforms of
  `ash-into-word-mod` and of `ash-into-word-modfx`, for the constant counts down to a word, for
  those below, and for the others.

A transform that gives up returns nothing. What it returns is the form that takes the place of the
call. The type of a new call is that of any integer.
-/

namespace Sbcl.Compiler.Modarith

open SbBignum (Digit LispInteger)

def mostPositiveWord : ℤ := 2 ^ nWordBits - 1

/-- A known call of two arguments. -/
def call (name : Fun) (x y : Lvar) : Lvar :=
  .use (.combination .known name (.cons x (.cons y .nil)) integerCtype)

def constant (value : ℤ) : Lvar := .use (.constant value)

/-- `unsigned-mask-width`; the bounds of the approximate interval of a type of integers are those of
the type. -/
def unsignedMaskWidth (type : Ctype) : Option ℕ :=
  (integerTypeNumericBounds type).2.map integerLength

/-- `(csubtypep type (specifier-type 'unsigned-byte))`. -/
def unsignedByteP (type : Ctype) : Bool := csubtypep type (some 0) none

/-! ## `logand` -/

/-- The transform of `(logand x y)` for a constant `y`, with a result of the type given, which is a
word. -/
def logandConstantTransform (x y : Lvar) (resultType : Ctype) : Option Lvar :=
  if fitsWidth false nWordBits resultType then do
    let mask ← constantLvar y
    let width ← unsignedMaskWidth resultType
    let cut := ldb width 0 mask
    if cut = mask then none else some (call .logand x (constant cut))
  else none

/-- The mask, where `a` is constant, or one of all the bits of its type. -/
def maskOf (a : Lvar) (fullMask : ℤ) : ℤ := (constantLvar a).getD fullMask

/-- What becomes of `(logand x b)` in `(logand a (logand x b))`; `modfx` is whether the backend has
`*-modfx`. -/
def cutLogand (modfx : Bool) (a inner : Lvar) : Option Lvar :=
  match inner with
  | .use (.combination _ .logand (.cons x (.cons y .nil)) _) =>
    if unsignedByteP a.type then do
      let b ← constantLvar y
      let width ← unsignedMaskWidth a.type
      let fullMask := maskOf a (ldb width 0 (-1))
      let cut := logand b fullMask
      if modfx ∧ (cut ≠ mostPositiveWord ∧ cut ≠ ash mostPositiveWord (-1)) ∧ cut = fullMask then
        some x
      else if cut = b then none
      else some (call .logand x (constant cut))
    else none
  | _ => none

/-- What becomes of `(logior x b)` in `(logand a (logior x b))`. -/
def cutLogior (a inner : Lvar) : Option Lvar :=
  match inner with
  | .use (.combination _ .logior (.cons x (.cons y .nil)) _) =>
    if unsignedByteP a.type then do
      let b ← constantLvar y
      let width ← unsignedMaskWidth a.type
      let fullMask := ldb width 0 (-1)
      let cut := logand b (maskOf a fullMask)
      if cut = fullMask then some (constant cut)
      else if integerLength cut ≥ integerLength b then none
      else some (call .logior x (constant cut))
    else none
  | _ => none

/-- What becomes of `(logxor x b)` in `(logand a (logxor x b))`. -/
def cutLogxor (a inner : Lvar) : Option Lvar :=
  match inner with
  | .use (.combination _ .logxor (.cons x (.cons y .nil)) _) =>
    if unsignedByteP a.type then do
      let b ← constantLvar y
      let width ← unsignedMaskWidth a.type
      let cut := logand b (maskOf a (ldb width 0 (-1)))
      if cut = b then none else some (call .logxor x (constant cut))
    else none
  | _ => none

/-- What becomes of `(mask-signed-field sign b)` in `(logand a (mask-signed-field sign b))`. -/
def dropMaskSignedField (a inner : Lvar) : Option Lvar :=
  match inner with
  | .use (.combination _ .maskSignedField (.cons size (.cons b .nil)) _) =>
    if unsignedByteP a.type then do
      let sign ← constantLvar size
      let width ← unsignedMaskWidth a.type
      if sign > width then some b else none
    else none
  | _ => none

/-- `combination-match` of a commutative call: the arguments as they stand, or exchanged. -/
def eitherOrder (rewrite : Lvar → Lvar → Option Lvar) (x y : Lvar) : Option (Lvar × Lvar) :=
  ((rewrite x y).map fun y => (x, y)) <|> (rewrite y x).map fun x => (x, y)

/-- The transform of `(logand a b)`: its arguments. -/
def logandTransform (modfx : Bool) (a b : Lvar) : Option (Lvar × Lvar) :=
  eitherOrder (cutLogand modfx) a b <|> eitherOrder cutLogior a b <|> eitherOrder cutLogxor a b <|>
    eitherOrder dropMaskSignedField a b

/-- `type-approximate-interval` of a type of integers. -/
def typeApproximateInterval (type : Ctype) : Interval :=
  let (low, high) := integerTypeNumericBounds type
  ⟨low.map fun l : ℤ => .closed l, high.map fun h : ℤ => .closed h⟩

/-- `(combination-is (lvar-uses amount) '(%negate -))`. -/
def isNegation : Lvar → Bool
  | .use (.combination _ name _ _) => name = .negate || name = .sub
  | _ => false

/-- Two shifts are better not made one. -/
def keepShifts (value amount : Lvar) (inRange : Interval) : Bool :=
  let outRange := typeApproximateInterval amount.type
  let newRange := intervalAdd inRange outRange
  ((intervalRangeInfo newRange 0).isNone && (intervalRangeInfo outRange 0).isSome ||
    isNegation amount) &&
    (fitsWidth false nWordBits value.type || fitsWidth true nWordBits value.type)

/-- The width of a modular version of `ash` of unsigned words, as `modular-version-info` has it. -/
def modularAshWidth (name : Fun) : Option ℕ :=
  if name = .ashLeftMod false ∨ name = .ashMod false then some nWordBits else none

/-- The transform of `(ash value amount)`. -/
def ashTransform (value amount : Lvar) : Option Lvar :=
  match value with
  | .use (.combination _ name (.cons x (.cons insideAmount .nil)) _) =>
    if name = .ash then
      let inRange := typeApproximateInterval insideAmount.type
      -- can't do anything if it shifts right erasing bits
      if intervalRangeInfo inRange 0 = some .plus then
        if keepShifts value amount inRange then none
          else some (call .ash x (call .add insideAmount amount))
      else none
    else do
      let width ← modularAshWidth name
      let amountValue ← constantLvar amount
      let insideValue ← constantLvar insideAmount
      if insideValue < 0 then none
      else some (call .logand (call .ash x (call .add insideAmount amount))
        (constant (ash 1 (width + amountValue) - 1)))
  | _ => none

section
variable (cut : ℤ → ℤ) (cutWord : Digit → ℤ)

/-- For a constant count from minus the width of a word to zero. -/
def ashIntoWordSmall (x : LispInteger) (count : ℤ) : ℤ :=
  match x with
  | .fixnum x => cut (ash x.val count)
  | .bignum x =>
    -- a bignum of one digit is a signed word
    if x.length = 1 then cut (ash x.toInt count)
    else cutWord (SbBignum.ashRightTwoWords (x.ref 1) (x.ref 0) (-count).toNat)

/-- For a constant count from minus the width of a word downwards. -/
def ashIntoWordLarge (x : LispInteger) (count : ℤ) : ℤ :=
  let words := (-count).toNat / nWordBits
  let bits := (-count).toNat % nWordBits
  match x with
  | .fixnum x => cut (ash x.val count)
  | .bignum x =>
    if x.length = 1 then cut (ash x.toInt count)
    else if bits = 0 then cutWord (SbBignum.bignumDigit x words)
    else cutWord (SbBignum.ashRightTwoWords (SbBignum.bignumDigit x (words + 1))
      (SbBignum.bignumDigit x words) bits)

/-- The form `right`, for a count that is not positive. -/
def ashIntoWordRight (x : LispInteger) (count : ℤ) : ℤ :=
  match x with
  | .fixnum x => cut (ash x.val count)
  | .bignum x => cutWord (SbBignum.ashIntoWordMod x (-count).toNat)

/-- For any count; `minusp` is whether its type says that it is not positive. -/
def ashIntoWordVariable (minusp : Bool) (x : LispInteger) (count : ℤ) : ℤ :=
  if minusp then ashIntoWordRight cut cutWord x count
  else if count < 0 then ashIntoWordRight cut cutWord x count
  else
    match x with
    | .fixnum x => cut (ash x.val count)
    | .bignum x => cut (ash x.toInt count)

end

/-- A result of `ash-into-word-mod`. -/
def wordMod (n : ℤ) : ℤ := logand n mostPositiveWord

/-- A result of `ash-into-word-modfx`. -/
def wordModfx (n : ℤ) : ℤ := maskSignedField nFixnumBits n

/-- The transforms of `ash-into-word-mod` return a word as it is. -/
def wordOfDigit (digit : Digit) : ℤ := digit.toNat

def fixnumOfDigit (digit : Digit) : ℤ := maskSignedField nFixnumBits digit.toNat

end Sbcl.Compiler.Modarith
