import Sbcl.Compiler.Interval

/-!
# Pushing a negation into an expression (compiler/srctran.lisp)

* `Lvar`, `Node`, `Combination`, `Uses` : the part of the compiler's graph that the pass walks, a
  tree, since every lvar has one destination;
* `floatContagionForNegate`, `mayNegate` : which of two arguments the types let the pass negate;
* `negateArgs` : one of two arguments, preferably one that loses a `%negate`;
* `negateLvar` : the pass, with `negateNode` for one use and `negateCombination` for a call;
* `negateTransform`, `removePairedNegate` : the transforms of `%negate` and of a product or a
  quotient.

The operations are those on exact rational numbers; any other node is a `leaf`. Whether the sign of
a zero is ignored is `floatSafe`, and what the derived types tell is part of the tree.
-/

namespace Sbcl.Compiler.Negation

/-! ## Trees -/

/-- What the derived type of an lvar tells: that it is a subtype of `(or rational (complex
rational))`, that it is a subtype of `(and number (not (or (eql 0) (complex rational))))`, and that
it intersects `complex`. -/
structure LvarType where
  exactNumber : Bool
  nonzero : Bool
  complexp : Bool
  deriving DecidableEq

inductive NumericClass where
  | integer | rational | float | number
  deriving DecidableEq

/-- A `numeric-type`. -/
structure NumericType where
  numericClass : NumericClass
  low : Option Bound
  high : Option Bound

/-- A member of a union type; what a type other than a numeric one accepts is not looked at. -/
inductive CheckedMember where
  | numeric (type : NumericType)
  | other (accepts : ℚ → Bool)

/-- The members of the type that a cast checks. A type that is no union is its own member. -/
abbrev TypeToCheck := List CheckedMember

inductive UnaryOp where
  | negate | unaryTruncate | unaryRound
  /-- The call that `(lambda (x) x)` leaves. -/
  | identity
  deriving DecidableEq

inductive BinaryOp where
  | add | sub | mul | div | truncate | round | floor | ceiling
  /-- With what the types tell: that the count is an `unsigned-byte`, and that the result is
  asserted to be a word. -/
  | ash (countUnsigned wordSizedResult : Bool)
  deriving DecidableEq

variable {ν β : Type}

mutual

/-- An lvar with its use, or with several of which `branch` is the one that has been executed. -/
inductive Lvar (ν β : Type) where
  | single (type : LvarType) (use : Node ν β)
  | several (type : LvarType) (branch : β) (uses : Uses ν β)

/-- A node. A `constant` is a reference to a constant or a node whose type has one member; a `leaf`
is a node that the pass does not look into. -/
inductive Node (ν β : Type) where
  | constant (value : ℚ)
  | leaf (name : ν)
  | combination (call : Combination ν β)
  | cast (typeToCheck : TypeToCheck) (value : Lvar ν β)

inductive Combination (ν β : Type) where
  | unary (op : UnaryOp) (x : Lvar ν β)
  | binary (op : BinaryOp) (x y : Lvar ν β)

/-- A list of uses, each with whether it has a `node-next`. -/
inductive Uses (ν β : Type) where
  | nil
  | cons (nodeNext : Bool) (use : Node ν β) (rest : Uses ν β)

end

def numericTypeWithoutBoundsP (type : TypeToCheck) : Bool :=
  type.all fun
    | .numeric type => type.low.isNone && type.high.isNone
    | .other _ => false

def Lvar.type : Lvar ν β → LvarType
  | .single type _ => type
  | .several type _ _ => type

/-- The one value of uses that are all the same constant. -/
def Uses.constant : Uses ν β → Option ℚ
  | .cons _ (.constant c) .nil => some c
  | .cons _ (.constant c) rest => if rest.constant = some c then some c else none
  | _ => none

/-- `lvar-value` of an lvar for which `constant-lvar-p` holds. -/
def Lvar.constant : Lvar ν β → Option ℚ
  | .single _ (.constant c) => some c
  | .single _ _ => none
  | .several _ _ uses => uses.constant

/-- A constant argument in the code of a transform. -/
def constantArg (c : ℚ) : Lvar ν β := .single ⟨true, c ≠ 0, false⟩ (.constant c)

/-- A combination around the value of an lvar, as an argument in the code of a transform. -/
def callArg (call : Combination ν β) : Lvar ν β := .single ⟨false, false, true⟩ (.combination call)

/-- The arguments of a call that may be negated. -/
inductive Contagion where
  | neither | first | second | both
  deriving DecidableEq

/-- `float-contagion-for-negate`: an integer zero must not be mixed with a float zero, whose
negation differs. -/
def floatContagionForNegate (a b : LvarType) (noRational : Bool) : Contagion :=
  if !noRational && (a.exactNumber && b.exactNumber) then .both
  else if a.nonzero then (if b.nonzero then .both else .first)
  else if b.nonzero then .second
  else .neither

def floatContagion (floatSafe : Bool) (a b : LvarType) : Contagion :=
  if floatSafe then .both else floatContagionForNegate a b false

/-- The arguments that `negate-args` tries. -/
def mayNegate (floatSafe contagion avoidComplex : Bool) (a b : LvarType) : Contagion :=
  if contagion then
    let contagion := floatContagion floatSafe a b
    if avoidComplex && !floatSafe then
      match a.complexp, b.complexp with
      | true, true => .neither
      | true, false => if contagion = .both ∨ contagion = .second then .second else contagion
      | false, true => if contagion = .both ∨ contagion = .first then .first else contagion
      | false, false => contagion
    else contagion
  else .both

/-! ## The pass -/

/-- The argument `test`: nil, t, and `%negate`, with which the tree is changed only where a
`%negate` is removed. -/
inductive Test where
  | rewrite | ask | remove
  deriving DecidableEq

/-- What is returned where it is not nil: t, and `%negate` where a `%negate` is removed. -/
inductive Kind where
  | t | negate
  deriving DecidableEq

/-- A failed `aver`. -/
inductive Failure where
  | averFailed
  deriving DecidableEq

/-- The value of a run, and what it was run on afterwards. -/
abbrev Outcome (α : Type) := Option Kind × α

/-- `negate-args` of two arguments, of which the runs are given. A run that does not succeed, and
one that asks, leave their argument as it was, so that the last one starts where the first did. -/
def negateArgs (may : Contagion) (first second : Lvar ν β)
    (negateFirst negateSecond : Test → Except Failure (Outcome (Lvar ν β))) (test : Test) :
    Except Failure (Outcome (Lvar ν β × Lvar ν β)) :=
  match may with
  | .neither => return (none, first, second)
  | .first => do
      let (kind, first) ← negateFirst test
      return (kind, first, second)
  | .second => do
      let (kind, second) ← negateSecond test
      return (kind, first, second)
  | .both =>
    match test with
    | .ask => do
        let (kind, first) ← negateFirst .ask
        if kind.isSome then return (kind, first, second)
        else
          let (kind, second) ← negateSecond .ask
          return (kind, first, second)
    -- removing a `%negate` is preferred to turning constants negative
    | .remove => do
        let (negate, first) ← negateFirst .remove
        if negate = some .negate then return (negate, first, second)
        else
          let (kind, second) ← negateSecond .remove
          return (kind <|> negate, first, second)
    | .rewrite => do
        let (negate, first) ← negateFirst .remove
        if negate = some .negate then return (negate, first, second)
        else
          let (kind, second) ← negateSecond .rewrite
          if kind.isSome then return (kind, first, second)
          else if negate.isSome then
            let (kind, first) ← negateFirst .rewrite
            return (kind, first, second)
          else return (none, first, second)

/-- Whether a call whose argument has been negated becomes another one. -/
def transforms (test : Test) (negated : Option Kind) : Bool :=
  negated.isSome && (test = .rewrite || (test = .remove && negated = some .negate))

/-- The value for uses of which any may be negated. -/
def anyKind (a b : Option Kind) : Option Kind :=
  if a = some .negate ∨ b = some .negate then some .negate else a <|> b

/-- What the test of the uses found: one that cannot be negated, one that can, and one that loses a
`%negate`. -/
structure Tested where
  left : Bool
  negated : Bool
  negate : Bool

def Tested.add (tested : Tested) (kind : Option Kind) : Tested :=
  ⟨tested.left || kind.isNone, tested.negated || kind.isSome, tested.negate || kind = some .negate⟩

mutual

def negateLvar (floatSafe : Bool) : Lvar ν β → Test → Bool → Except Failure (Outcome (Lvar ν β))
  | .single type use, test, anyBranch => do
      let (kind, use) ← negateNode floatSafe use test anyBranch
      return (kind, .single type use)
  | .several type branch uses, test, true => do
      let (kind, uses) ← negateAny floatSafe uses test
      return (kind, .several type branch uses)
  | .several type branch uses, test, false => do
      let tested ← testUses floatSafe uses
      if !tested.negated || tested.left then return (none, .several type branch uses)
      else if test = .ask then return (some .t, .several type branch uses)
      else if tested.negate || test = .rewrite then
        let uses ← negateUses floatSafe uses
        return (some (if tested.negate then .negate else .t), .several type branch uses)
      else return (some .t, .several type branch uses)

/-- `negate-node`. A cast whose type has no bounds is looked through. -/
def negateNode (floatSafe : Bool) : Node ν β → Test → Bool → Except Failure (Outcome (Node ν β))
  | .constant value, test, _ =>
    if value = 0 ∧ floatSafe = false then return (none, .constant value)
    else if test = .rewrite then return (some .t, .constant (-value))
    else return (some .t, .constant value)
  | .leaf name, _, _ => return (none, .leaf name)
  | .combination call, test, anyBranch => negateCombination floatSafe call test anyBranch
  | .cast typeToCheck (.single type (.combination call)), test, anyBranch =>
    if numericTypeWithoutBoundsP typeToCheck then do
      let (kind, use) ← negateCombination floatSafe call test anyBranch
      return (kind, .cast typeToCheck (.single type use))
    else return (none, .cast typeToCheck (.single type (.combination call)))
  | .cast typeToCheck value, _, _ => return (none, .cast typeToCheck value)

/-- The cases of `negate-node` for a call. -/
def negateCombination (floatSafe : Bool) : Combination ν β → Test → Bool →
    Except Failure (Outcome (Node ν β))
  -- (- (- x)) => x
  | .unary .negate x, test, _ =>
    if test = .ask then return (some .negate, .combination (.unary .negate x))
    else return (some .negate, .combination (.unary .identity x))
  | .unary .unaryTruncate x, test, anyBranch => do
      let (kind, x) ← negateLvar floatSafe x test anyBranch
      if kind.isSome then return (kind, .combination (.unary .unaryTruncate x))
      else if test = .rewrite then return (some .t,
        .combination (.binary .truncate x (constantArg (-1))))
      else return (some .t, .combination (.unary .unaryTruncate x))
  | .unary .unaryRound x, test, anyBranch => do
      let (kind, x) ← negateLvar floatSafe x test anyBranch
      if kind.isSome then return (kind, .combination (.unary .unaryRound x))
      else if test = .rewrite then return (some .t,
        .combination (.binary .round x (constantArg (-1))))
      else return (some .t, .combination (.unary .unaryRound x))
  | .unary .identity x, _, _ => return (none, .combination (.unary .identity x))
  | .binary op x y, test, anyBranch =>
    let args (contagion avoidComplex : Bool) : Except Failure (Outcome (Lvar ν β × Lvar ν β)) :=
      negateArgs (mayNegate floatSafe contagion avoidComplex x.type y.type) x y (fun test =>
        negateLvar floatSafe x test false)
        (fun test => negateLvar floatSafe y test false) test
    match op with
    -- (- (- x y)) => (- y x)
    | .sub =>
      if floatSafe = false then return (none, .combination (.binary .sub x y))
      else if test = .rewrite then return (some .t, .combination (.binary .sub y x))
      else return (some .t, .combination (.binary .sub x y))
    -- (- (+ x c)) => (- -c x)
    | .add =>
      if y.constant = none ∨ floatSafe = false then return (none, .combination (.binary .add x y))
      else if test = .rewrite then
        return (some .t, .combination (.binary .sub (callArg (.unary .negate y)) x))
      else return (some .t, .combination (.binary .add x y))
    | .mul => do
        let (kind, x, y) ← args true true
        return (kind, .combination (.binary .mul x y))
    | .div =>
      if y.type.complexp && !floatSafe then return (none, .combination (.binary .div x y))
      else do
        let (kind, x, y) ← args true false
        return (kind, .combination (.binary .div x y))
    | .truncate => do
        let (kind, x, y) ← args false false
        return (kind, .combination (.binary .truncate x y))
    | .round => do
        let (kind, x, y) ← args false false
        return (kind, .combination (.binary .round x y))
    | .floor => do
        let (negated, x, y) ← args false false
        return (negated,
          .combination (.binary (if transforms test negated then .ceiling else .floor) x y))
    | .ceiling => do
        let (negated, x, y) ← args false false
        return (negated,
          .combination (.binary (if transforms test negated then .floor else .ceiling) x y))
    | .ash countUnsigned wordSizedResult =>
      if countUnsigned then do
        let (kind, x) ← negateLvar floatSafe x test anyBranch
        return (kind, .combination (.binary (.ash countUnsigned wordSizedResult) x y))
      else
        match y.constant with
        | none => return (none, .combination (.binary (.ash countUnsigned wordSizedResult) x y))
        | some shift =>
          -- (ash x -n) is (floor x (ash 1 n))
          if (shift.den = 1 ∧ -4096 ≤ shift ∧ shift ≤ -1) ∧ wordSizedResult = false then do
            let (negated, x) ← negateLvar floatSafe x test false
            return (negated, .combination
              (if transforms test negated then .binary .ceiling x
                (constantArg (2 ^ (-shift.num).toNat))
              else .binary (.ash countUnsigned wordSizedResult) x y))
          else return (none, .combination (.binary (.ash countUnsigned wordSizedResult) x y))

/-- The loop over the uses where any of them may be negated. -/
def negateAny (floatSafe : Bool) : Uses ν β → Test → Except Failure (Outcome (Uses ν β))
  | .nil, _ => return (none, .nil)
  | .cons nodeNext use rest, test => do
      let (kind, use) ← negateNode floatSafe use test true
      let (kinds, rest) ← negateAny floatSafe rest test
      return (anyKind kind kinds, .cons nodeNext use rest)

/-- The loop that asks which of the uses can be negated. -/
def testUses (floatSafe : Bool) : Uses ν β → Except Failure Tested
  | .nil => return ⟨false, false, false⟩
  | .cons nodeNext use rest => do
      let (kind, _) ← if nodeNext then pure (none, use) else negateNode floatSafe use .ask false
      let tested ← testUses floatSafe rest
      return tested.add kind

/-- The loop that negates every use. -/
def negateUses (floatSafe : Bool) : Uses ν β → Except Failure (Uses ν β)
  | .nil => return .nil
  | .cons nodeNext use rest => do
      let (kind, use) ← negateNode floatSafe use .rewrite false
      if kind.isNone then throw .averFailed
      else
        let rest ← negateUses floatSafe rest
        return .cons nodeNext use rest

end

/-- The transform of `(%negate x)`: the lvar that takes its place, or `none` where it gives up. -/
def negateTransform (floatSafe : Bool) (x : Lvar ν β) : Except Failure (Option (Lvar ν β)) := do
  let (kind, x) ← negateLvar floatSafe x .rewrite false
  return if kind.isSome then some x else none

/-- `remove-paired-negate`: whether it succeeds, and the two arguments afterwards. -/
def removePairedNegate (x y : Lvar ν β) (nodeMinusZeroIgnored minusZeroIgnored floatResult : Bool) :
    Except Failure (Bool × Lvar ν β × Lvar ν β) :=
  if minusZeroIgnored || nodeMinusZeroIgnored || floatContagionForNegate x.type y.type floatResult =
    .both then do
    let (nx, _) ← negateLvar nodeMinusZeroIgnored x .ask false
    if nx.isNone then return (false, x, y)
    else
      let (ny, _) ← negateLvar nodeMinusZeroIgnored y .ask false
      if ny.isSome ∧ (nx = some .negate ∨ ny = some .negate) then
        let (negatedX, x') ← negateLvar nodeMinusZeroIgnored x .rewrite false
        let (negatedY, y') ← negateLvar nodeMinusZeroIgnored y .rewrite false
        if negatedX.isNone || negatedY.isNone then throw .averFailed
        else return (true, x', y')
      else return (false, x, y)
  else return (false, x, y)

end Sbcl.Compiler.Negation
