import Sbcl.Compiler.IntegerType

/-!
# Derived types of the bit operations (compiler/bitops-derive-type.lisp)

* `logandDeriveUnsignedBounds`, `logiorDeriveUnsignedBounds`, `logxorDeriveUnsignedBounds` : bounds
  of an operation on natural numbers between given bounds;
* `logandDeriveTypeAux`, `logiorDeriveTypeAux`, `logxorDeriveTypeAux` : the type of an operation on
  members of two integer types;
* `Derived` : the derived type with the calls of the unsigned bounds that led to it.
-/

namespace Sbcl.Compiler

def zeroes (n : ℤ) : ℤ := ash (-1) n

def ones (n : ℤ) : ℤ := lognot (ash (-1) n)

/-! ## Unsigned bounds -/

def logandDeriveUnsignedBounds (x y : IntegerType) : Option (ℤ × ℤ) := do
  let a ← x.low
  let b ← x.high
  let c ← y.low
  let d ← y.high
  let lengthXorX := integerLength (logxor a b)
  let lengthXorY := integerLength (logxor c d)
  let low :=
    let mask := zeroes (max lengthXorX lengthXorY : ℕ)
    let index : ℤ := integerLength (logior (logior mask a) c)
    logand (logand a c) (zeroes (index - 1))
  let high :=
    let maskX := ones lengthXorX
    let maskY := ones lengthXorY
    let indexX : ℤ := integerLength (logand (logand maskX b) (lognot d))
    let indexY : ℤ := integerLength (logand (logand maskY d) (lognot b))
    if indexX = indexY then logand b d
    else if indexX > indexY then logand (logior b (ones (indexX - 1))) d
    else logand (logior d (ones (indexY - 1))) b
  return (low, high)

def logiorDeriveUnsignedBounds (x y : IntegerType) : Option (ℤ × ℤ) := do
  let a := max (x.low.getD 0) 0
  let b ← x.high
  let c := max (y.low.getD 0) 0
  let d ← y.high
  let lengthXorX := integerLength (logxor a b)
  let lengthXorY := integerLength (logxor c d)
  let low :=
    let maskX := ones lengthXorX
    let maskY := ones lengthXorY
    let indexX : ℤ := integerLength (logand (logand maskX (lognot a)) c)
    let indexY : ℤ := integerLength (logand (logand maskY (lognot c)) a)
    if indexX = indexY then logior a c
    else if indexX > indexY then logior (logand a (zeroes (indexX - 1))) c
    else logior (logand c (zeroes (indexY - 1))) a
  let high :=
    let mask := ones (max lengthXorX lengthXorY : ℕ)
    let index : ℤ := integerLength (logand (logand mask b) d)
    logior (logior b d) (ones (index - 1))
  return (low, high)

def logxorDeriveUnsignedBounds (x y : IntegerType) : Option (ℤ × ℤ) := do
  let a ← x.low
  let b ← x.high
  let c ← y.low
  let d ← y.high
  let notB := lognot b
  let notD := lognot d
  let lengthXorX := integerLength (logxor a b)
  let lengthXorY := integerLength (logxor c d)
  let mask := zeroes (max lengthXorX lengthXorY : ℕ)
  let low :=
    let indexAD : ℤ := integerLength (logior (logior mask a) notD)
    let indexBC : ℤ := integerLength (logior (logior mask notB) c)
    logior (logand (logand a notD) (zeroes (indexAD - 1)))
      (logand (logand notB c) (zeroes (indexBC - 1)))
  let high :=
    let indexAC : ℤ := integerLength (logior (logior mask a) c)
    let indexBD : ℤ := integerLength (logior (logior mask notB) notD)
    lognor (logand (logand a c) (zeroes (indexAC - 1)))
      (logand (logand notB notD) (zeroes (indexBD - 1)))
  return (low, high)

/-! ## Derived types -/

/-- A derived type, and the arguments of the call of the unsigned bounds behind it, if there was
one. -/
structure Derived where
  type : Ctype
  calls : List (IntegerType × IntegerType)

/-- A type derived without the unsigned bounds. -/
def derived (t : Ctype) : Option Derived := some ⟨t, []⟩

/-- A type derived from the values of `bounds`. -/
def withBounds (bounds : IntegerType → IntegerType → Option (ℤ × ℤ)) (x y : IntegerType)
    (k : ℤ → ℤ → Ctype) : Option Derived := do
  let (low, high) ← bounds x y
  return ⟨k low high, [(x, y)]⟩

def logandDeriveTypeAux (x y : IntegerType) (sameLeaf : Bool) : Option Derived :=
  if sameLeaf then derived [x]
  else if x.singleton = some (-1) then derived [y]
  else if y.singleton = some (-1) then derived [x]
  else
    let lx := integerTypeLength x
    let ly := integerTypeLength y
    if !lx.neg then
      if !ly.neg then
        match lx.len, ly.len with
        | none, none => derived (specifierInteger (some 0) none)
        | none, some yLen => derived (unsignedByte yLen)
        | some xLen, none => derived (unsignedByte xLen)
        | some _, some _ =>
          withBounds logandDeriveUnsignedBounds x y fun low high =>
            specifierInteger (some low) (some high)
      else
        logandMixed x lx ly
    else
      if !ly.neg then
        logandMixed y ly lx
      else
        match lx.low, ly.low with
        | some xLow, some yLow =>
          derived (specifierInteger (some (zeroes (integerLength (min xLow yLow))))
            (match lx.high, ly.high with
            | some xHigh, some yHigh => some (max (max xHigh yHigh) (-1))
            | _, _ => none))
        | _, _ =>
          match lx.high, ly.high with
          | some xHigh, some yHigh =>
            derived (specifierInteger none (some (max (max xHigh yHigh) (-1))))
          | _, _ =>
            if !ly.pos && !lx.pos then derived (specifierInteger none (some (-1)))
            else derived (specifierInteger none none)
where
  /-- The two clauses for one operand that is positive, `x`, and one that might be negative. -/
  logandMixed (x : IntegerType) (lx ly : TypeLength) : Option Derived :=
    let rest := match lx.high with
      | some xHigh => derived (specifierInteger (some 0) (some xHigh))
      | none => derived (specifierInteger (some 0) none)
    match lx.len, ly.len, ly.low, ly.high with
    | some xLen, some yLen, some yLow, some yHigh =>
      if yHigh < 0 then do
        let len := max xLen yLen
        let y' ← IntegerType.make (some (ldb len 0 yLow)) (some (ldb len 0 yHigh))
        withBounds logandDeriveUnsignedBounds x y' fun low high =>
          specifierInteger (some low) (some high)
      else rest
    | _, _, _, _ => rest

/-- `add-one`: a negative low power of two is not reached when the other operand has some low bits
set. -/
def addOne (aLow bLow : ℤ) (bHigh : Option ℤ) : ℤ :=
  match bHigh with
  | none => aLow
  | some bHigh =>
    if 0 ≤ aLow ∨ (bLow ≤ 0 ∧ 0 ≤ bHigh) then aLow
    else
      let expt : ℤ := 2 ^ integerLength aLow
      if aLow = -expt ∧ aLow < bLow ∧ bHigh < expt - 1 then
        if bLow = bHigh then logior aLow bLow else aLow + 1
      else aLow

def logiorDeriveTypeAux (x y : IntegerType) (sameLeaf : Bool) : Option Derived :=
  if sameLeaf then derived [x]
  else
    let lx := integerTypeLength x
    let ly := integerTypeLength y
    if !lx.neg && !ly.neg then
      match lx.len, ly.len with
      | some _, some _ =>
        withBounds logiorDeriveUnsignedBounds x y fun low high =>
          specifierInteger (some low) (some high)
      | _, _ => do
          let xLow ← lx.low
          let yLow ← ly.low
          derived (specifierInteger (some (max yLow xLow)) none)
    else if !lx.pos then
      if !ly.pos then
        match lx.len, ly.len with
        | some xLen, some yLen =>
          derived (specifierInteger (some (ash (-1) (min xLen yLen))) (some (-1)))
        | _, _ => derived (specifierInteger none (some (-1)))
      else derived (specifierInteger lx.low (some (-1)))
    else if !ly.pos then derived (specifierInteger ly.low (some (-1)))
    else
      match positive ly.low, positive lx.low with
      | some yLow, _ => logiorMixed y lx ly yLow
      | none, some xLow => logiorMixed x ly lx xLow
      | none, none =>
        match lx.len, ly.len with
        | some _, some _ => do
            let xLow ← lx.low
            let yLow ← ly.low
            withBounds logiorDeriveUnsignedBounds x y fun _ high =>
              specifierInteger (some (min xLow yLow)) (some high)
        | _, _ =>
          match lx.high, ly.high with
          | some _, some _ =>
            withBounds logiorDeriveUnsignedBounds x y fun _ high =>
              specifierInteger none (some high)
          | _, _ => derived (specifierInteger none none)
where
  /-- `low`, when it is there and positive. -/
  positive (low : Option ℤ) : Option ℤ := low.filter (0 < ·)
  /-- The clause for an operand, `y`, of which all members are positive, and one that might be
  negative. -/
  logiorMixed (y : IntegerType) (lx ly : TypeLength) (yLow : ℤ) : Option Derived :=
    let negative := specifierInteger (lx.low.map fun xLow => addOne xLow yLow ly.high) (some (-1))
    match lx.high, ly.len with
    | some xHigh, some _ => do
        let x' ← IntegerType.make (some 0) (some xHigh)
        withBounds logiorDeriveUnsignedBounds x' y fun low high =>
          negative ++ specifierInteger (some low) (some high)
    | _, _ => derived (negative ++ specifierInteger (some yLow) none)

def logxorDeriveTypeAux (x y : IntegerType) (sameLeaf : Bool) : Option Derived :=
  if sameLeaf then derived (specifierInteger (some 0) (some 0))
  else
    let lx := integerTypeLength x
    let ly := integerTypeLength y
    if !lx.neg && !ly.neg then
      match lx.len, ly.len with
      | some _, some _ =>
        withBounds logxorDeriveUnsignedBounds x y fun low high =>
          specifierInteger (some low) (some high)
      | _, _ => derived (specifierInteger (some 0) none)
    else if !lx.pos && !ly.pos then
      match lx.len, ly.len with
      | some xLen, some yLen => derived (unsignedByte (max xLen yLen))
      | _, _ => derived (specifierInteger (some 0) none)
    else if (!lx.pos && !ly.neg) || (!ly.pos && !lx.neg) then
      match lx.len, ly.len with
      | some xLen, some yLen =>
        derived (specifierInteger (some (ash (-1) (max xLen yLen))) (some (-1)))
      | _, _ => derived (specifierInteger none (some (-1)))
    else
      match lx.len, ly.len with
      | some xLen, some yLen => derived (signedByte (1 + max xLen yLen))
      | _, _ => derived (specifierInteger none none)

end Sbcl.Compiler
