import Sbcl.Compiler.IntegerType

/-!
# Modular arithmetic (compiler/modarith.lisp)

* `Lvar`, `Node`, `Args` : expressions over integers with their derived types; `Lvar.eval` : their
  values;
* `ModularClass`, `findModularVersion`, `bestModularVersion` : the registered modular functions and
  their widths; `x8664` : those of x86-64;
* `cutUses`, `cutNode`, `cutArgs`, `cutToWidth` : `cut-to-width`;
* `cutAsh` : the optimizer of `ash` on x86-64;
* `logandOptimizer`, `maskSignedFieldOptimizer`, `logiorOptimizer` : its callers.

The cut of an lvar is a combination with the type that `truly-the` gives it. A node gets the type
that the function it calls returns; what the optimizer of the combination makes of it later is not
part of the pass, nor are nodes of blocks that are deleted.
-/

namespace Sbcl.Compiler.Modarith

/-- `sb-vm:n-word-bits`. -/
def nWordBits : ℕ := 64

/-- `sb-vm:n-fixnum-bits`. -/
def nFixnumBits : ℕ := 63

/-! ## Integer functions -/

/-- `(dpb newbyte (byte size posn) integer)`. -/
def dpb (newbyte : ℤ) (size posn : ℕ) (integer : ℤ) : ℤ :=
  let mask := ash 1 size - 1
  logior (logand integer (lognot (ash mask posn))) (ash (logand newbyte mask) posn)

def maskSignedField (size : ℕ) (integer : ℤ) : ℤ :=
  if size = 0 then 0
  else if integer.testBit (size - 1) then dpb integer (size - 1) 0 (-1)
  else ldb (size - 1) 0 integer

/-- The value cut to a width. -/
def cutValue (signedp : Bool) (width : ℕ) (x : ℤ) : ℤ :=
  if signedp then maskSignedField width x else ldb width 0 x

/-- The functions of the combinations. -/
inductive Fun where
  | logand | logior | logxor | logeqv | lognand | lognor | logandc2 | logorc1 | logorc2 | lognot
  | add | sub | mul | negate
  | maskSignedField | ash
  /-- A modular version of a prototype. -/
  | modular (prototype : Fun) (signedp : Bool) (width : ℕ)
  /-- `ash-left-modfx` and `ash-left-mod64`. -/
  | ashLeftMod (signedp : Bool)
  /-- `ash-modfx` and `ash-mod64`. -/
  | ashMod (signedp : Bool)
  /-- `ash-into-word-modfx` and `ash-into-word-mod`. -/
  | ashIntoWordMod (signedp : Bool)
  | other (name : String)
deriving DecidableEq

/-- The width of the versions of `ash`. -/
def ashWidth (signedp : Bool) : ℕ := if signedp then nFixnumBits else nWordBits

variable (other : String → List ℤ → ℤ)

/-- The value of a call, of two arguments where the function takes any number: the source transforms
leave no others. -/
def Fun.eval : Fun → List ℤ → ℤ
  | .logand, [a, b] => Sbcl.logand a b
  | .logior, [a, b] => Sbcl.logior a b
  | .logxor, [a, b] => Sbcl.logxor a b
  | .logeqv, [a, b] => Sbcl.lognot (Sbcl.logxor a b)
  | .lognand, [a, b] => Sbcl.lognot (Sbcl.logand a b)
  | .lognor, [a, b] => Sbcl.lognor a b
  | .logandc2, [a, b] => Sbcl.logandc2 a b
  | .logorc1, [a, b] => Sbcl.logior (Sbcl.lognot a) b
  | .logorc2, [a, b] => Sbcl.logior a (Sbcl.lognot b)
  | .lognot, [a] => Sbcl.lognot a
  | .add, [a, b] => a + b
  | .sub, [a, b] => a - b
  | .mul, [a, b] => a * b
  | .negate, [a] => -a
  | .maskSignedField, [size, a] => Modarith.maskSignedField size.toNat a
  | .ash, [a, count] => Sbcl.ash a count
  | .modular prototype signedp width, args => cutValue signedp width (prototype.eval args)
  | .ashLeftMod signedp, [a, count] => cutValue signedp (ashWidth signedp) (Sbcl.ash a count)
  | .ashMod signedp, [a, count] => cutValue signedp (ashWidth signedp) (Sbcl.ash a count)
  | .ashIntoWordMod signedp, [a, count] => cutValue signedp (ashWidth signedp) (Sbcl.ash a count)
  | .other name, args => other name args
  | _, _ => 0

/-- `csubtypep` to `(integer low high)`. -/
def csubtypep (t : Ctype) (low high : Option ℤ) : Bool :=
  t.all fun s => (low.all fun l => s.low.any (l ≤ ·)) && (high.all fun h => s.high.any (· ≤ h))

/-- The bounds of `(signed-byte width)`, of `(unsigned-byte width)` or of `(eql 0)`. -/
def widthLow (signedp : Bool) (width : ℕ) : ℤ :=
  if width = 0 then 0 else if signedp then -(2 ^ (width - 1)) else 0

def widthHigh (signedp : Bool) (width : ℕ) : ℤ :=
  if width = 0 then 0 else if signedp then 2 ^ (width - 1) - 1 else 2 ^ width - 1

/-- `csubtypep` to the type of a width. -/
def fitsWidth (signedp : Bool) (width : ℕ) (t : Ctype) : Bool :=
  csubtypep t (some (widthLow signedp width)) (some (widthHigh signedp width))

def wordSizedTypeP (t : Ctype) : Bool := fitsWidth false nWordBits t || fitsWidth true nWordBits t

def integerTypeNumericBounds (t : Ctype) : Option ℤ × Option ℤ :=
  match t with
  | [] => (none, none)
  | s :: rest =>
    (rest.foldl (fun low u => do return min (← low) (← u.low)) s.low,
      rest.foldl (fun high u => do return max (← high) (← u.high)) s.high)

def integerCtype : Ctype := [⟨none, none, by simp⟩]

/-- What a modular function of a width returns. -/
def widthCtype (signedp : Bool) (width : ℕ) : Ctype :=
  specifierInteger (some (widthLow signedp width)) (some (widthHigh signedp width))

def eqlCtype (value : ℤ) : Ctype := specifierInteger (some value) (some value)

/-! ## Expressions -/

/-- `combination-kind`. -/
inductive CombinationKind where
  | known | full
deriving DecidableEq

mutual

inductive Lvar where
  | use (node : Node)
  /-- Several uses, of which the flow of control takes one. -/
  | uses (branch : ℕ) (first rest : Lvar)

inductive Node where
  | ref (leaf : ℕ) (type : Ctype)
  | constant (value : ℤ)
  | combination (kind : CombinationKind) (name : Fun) (args : Args) (type : Ctype)
  /-- A cast, with whether the type to check is `integer`, and whether a combination of it is used
  almost immediately. -/
  | cast (integerp : Bool) (almostImmediatelyUsed : Bool) (value : Lvar) (type : Ctype)

inductive Args where
  | nil
  | cons (arg : Lvar) (rest : Args)

end

/-- The values of the leaves, and the branches that the flow of control takes. -/
structure Env where
  leaf : ℕ → ℤ
  branch : ℕ → Bool

mutual

def Lvar.eval (env : Env) : Lvar → ℤ
  | .use node => node.eval env
  | .uses branch first rest => if env.branch branch then first.eval env else rest.eval env

def Node.eval (env : Env) : Node → ℤ
  | .ref leaf _ => env.leaf leaf
  | .constant value => value
  | .combination _ name args _ => name.eval other (args.eval env)
  | .cast _ _ value _ => value.eval env

def Args.eval (env : Env) : Args → List ℤ
  | .nil => []
  | .cons arg rest => arg.eval env :: rest.eval env

end

/-- `node-derived-type`. -/
def Node.type : Node → Ctype
  | .ref _ type => type
  | .constant value => eqlCtype value
  | .combination _ _ _ type => type
  | .cast _ _ _ type => type

/-- `lvar-type`. -/
def Lvar.type : Lvar → Ctype
  | .use node => node.type
  | .uses _ first rest => first.type ++ rest.type

/-- `type-singleton-p`. -/
def typeSingleton : Ctype → Option ℤ
  | [s] => s.singleton
  | _ => none

mutual

/-- The constant of the principal use. -/
def Lvar.principalConstant : Lvar → Option ℤ
  | .use node => node.principalConstant
  | .uses _ _ _ => none

def Node.principalConstant : Node → Option ℤ
  | .constant value => some value
  | .cast _ _ value _ => value.principalConstant
  | _ => none

end

def ctypep (value : ℤ) (t : Ctype) : Bool :=
  t.any fun s => (s.low.all (· ≤ value)) && (s.high.all (value ≤ ·))

/-- `lvar-value`, when the lvar is `constant-lvar-p`. -/
def constantLvar (lvar : Lvar) : Option ℤ :=
  match lvar.principalConstant with
  | some value => if ctypep value lvar.type then some value else none
  | none => typeSingleton lvar.type

def Args.toList : Args → List Lvar
  | .nil => []
  | .cons arg rest => arg :: rest.toList

/-! ## Modular functions -/

/-- `modular-fun-info`, of which the version is the modular function of the prototype. -/
structure ModularFunInfo where
  width : ℕ
  signedp : Bool
deriving DecidableEq

/-- What a function is registered as. -/
inductive ModularEntry where
  | good
  | infos (infos : List ModularFunInfo)
  /-- The optimizer of `ash`. -/
  | ashOptimizer
deriving DecidableEq

structure ModularClass where
  funs : Fun → ModularEntry
  /-- Increasing widths, and whether they are signed. -/
  widths : List (ℕ × Bool)

inductive ModularKind where
  | untagged | tagged
deriving DecidableEq

/-- The three modular classes. -/
structure Registry where
  untaggedUnsigned : ModularClass
  untaggedSigned : ModularClass
  tagged : ModularClass

variable (registry : Registry)

/-- `find-modular-class`; the class of tagged functions is signed. -/
def findModularClass (kind : ModularKind) (signedp : Bool) : ModularClass :=
  match kind with
  | .untagged => if signedp then registry.untaggedSigned else registry.untaggedUnsigned
  | .tagged => registry.tagged

/-- What `find-modular-version` returns when it is not nil. -/
inductive ModularVersion where
  | good
  | info (info : ModularFunInfo)
  | ashOptimizer
deriving DecidableEq

def findModularVersion (name : Fun) (kind : ModularKind) (signedp : Bool) (width : ℕ) :
    Option ModularVersion :=
  match (findModularClass registry kind signedp).funs name with
  | .good => some .good
  | .infos infos => (infos.find? fun mfi => width ≤ mfi.width).map .info
  | .ashOptimizer => some .ashOptimizer

def inexactMatch (width : ℕ) (signedp : Bool) (w : ℕ × Bool) : Bool :=
  if signedp = w.2 then width ≤ w.1 else if signedp = false then width < w.1 else false

def bestModularVersion (width : ℕ) (signedp : Bool) : Option (ℕ × ModularKind × Bool) :=
  let uwidths :=
    registry.untaggedUnsigned.widths.merge registry.untaggedSigned.widths fun a b => a.1 ≤ b.1
  if (width, signedp) ∈ uwidths then some (width, .untagged, signedp)
  else
    match registry.tagged.widths.find? (inexactMatch width signedp) with
    | some tgt => some (tgt.1, .tagged, tgt.2)
    | none =>
      match uwidths.find? (inexactMatch width signedp) with
      | some ugt => some (ugt.1, .untagged, ugt.2)
      | none => none

/-- What `define-good-signed-modular-funs` is called with. -/
def goodSignedModularFuns : List Fun :=
  [.logand, .logandc2, .logeqv, .logior, .lognand, .lognor, .lognot, .logorc1, .logorc2, .logxor]

/-- The functions of x86-64, of those that are modelled. -/
def x8664 : Registry where
  untaggedUnsigned :=
    { funs := fun name =>
        if name ∈ [Fun.logand, .logior, .logxor] then .good
        else if name = .ash then .ashOptimizer
        else if name ∈ [Fun.add, .sub, .mul, .negate, .lognot] then .infos [⟨nWordBits, false⟩]
        else .infos []
      widths := List.replicate 5 (nWordBits, false) }
  untaggedSigned :=
    { funs := fun name => if name ∈ goodSignedModularFuns then .good else .infos [], widths := [] }
  tagged :=
    { funs := fun name =>
        if name ∈ goodSignedModularFuns then .good
        else if name = .ash then .ashOptimizer
        else if name ∈ [Fun.add, .sub, .mul, .negate] then .infos [⟨nFixnumBits, true⟩]
        else .infos []
      widths := List.replicate 4 (nFixnumBits, true) }

/-! ## Cutting to a width -/

/-- What the destination of an lvar is to `insert-lvar-cut`. -/
inductive Dest where
  /-- A `logand` of the lvar and of a constant. -/
  | logand (other : ℤ)
  /-- A `mask-signed-field` of the lvar, of constant size. -/
  | maskSignedField (size : ℤ)
  | other
deriving DecidableEq

/-- The destination already cuts the lvar to the width. -/
def Dest.cuts (dest : Dest) (signedp : Bool) (width : ℕ) : Bool :=
  match dest with
  | .logand other => decide (0 ≤ other) && fitsWidth signedp width (eqlCtype other)
  | .maskSignedField size => signedp && decide (size ≤ width)
  | .other => false

/-- The form that `insert-lvar-cut` filters an lvar by. -/
def lvarCut (signedp : Bool) (width : ℕ) (lvar : Lvar) : Lvar :=
  if signedp then
    .use (.combination .known .maskSignedField (.cons (.use (.constant width)) (.cons lvar .nil))
      (widthCtype true width))
  else
    .use (.combination .known .logand (.cons lvar (.cons (.use (.constant (2 ^ width - 1))) .nil))
      (widthCtype false width))

/-- The values of `cut-node`, with the node. -/
structure CutNode where
  node : Node
  handled : Bool
  change : Bool
  wide : Bool

/-- What the loop of `cut-lvar` over the uses leaves. -/
structure CutUses where
  lvar : Lvar
  didSomething : Bool
  mustInsert : Bool
  overWide : Bool

/-- The values of `cut-lvar`, with the lvar. -/
structure CutLvar where
  lvar : Lvar
  didSomething : Bool
  overWide : Bool

structure CutArgs where
  args : Args
  didSomething : Bool
  overWide : Bool

/-- `cut-lvar` after its loop. -/
def insertLvarCut (signedp : Bool) (width : ℕ) (dest : Dest) (head : Bool)
    (cut : CutUses) : CutLvar :=
  if cut.mustInsert || (head && cut.overWide) then
    if dest.cuts signedp width then ⟨cut.lvar, cut.didSomething, false⟩
    else ⟨lvarCut signedp width cut.lvar, true, false⟩
  else ⟨cut.lvar, cut.didSomething, cut.overWide⟩

/-- The type of the node makes a cut of it needless. -/
def nothingToDo (name : Fun) (signedp : Bool) (width : ℕ) (type : Ctype) : Bool :=
  (match name with
    | .logand => csubtypep type (some 0) none
    | .logior => csubtypep type none (some 0)
    | .maskSignedField => true
    | _ => false) && fitsWidth signedp width type

/-- Which version the optimizer of `ash` returns, and whether it cuts the integer to the width. -/
def cutAsh (signedp : Bool) (width resultWidth : ℕ) (integer count : Lvar) : Option (Fun × Bool) :=
  if width ≤ ashWidth signedp then
    if (constantLvar count).any (0 < ·) || fitsWidth false nWordBits count.type then some
      (.ashLeftMod signedp, true)
    else if (constantLvar count).isNone && fitsWidth true nWordBits count.type &&
      !csubtypep count.type none (some 0) &&
        !csubtypep count.type (some 0) none && wordSizedTypeP integer.type then
      some (.ashMod signedp, false)
    else if !wordSizedTypeP integer.type then
      -- Uses the bits from the first word when shifting right
      if csubtypep count.type (some (resultWidth - width)) (some (2 ^ (nFixnumBits - 1) - 1)) then
        some (.ashMod signedp, true)
      else if fitsWidth true nFixnumBits count.type && !csubtypep count.type (some 0) none then
        some (.ashIntoWordMod signedp, false)
      else none
    else none
  else none

/-- The destinations of the arguments of a good function. -/
def argDests (name : Fun) (args : Args) : List Dest :=
  match name, args.toList with
  | .logand, [_, other] => [(constantLvar other).elim .other .logand, .other]
  | .maskSignedField, [size, _] => [.other, (constantLvar size).elim .other .maskSignedField]
  | _, _ => []

/-- `(+ -)` of two arguments, or `%negate` of one. -/
def castCombination : Fun → Args → Bool
  | .add, .cons _ (.cons _ .nil) => true
  | .sub, .cons _ (.cons _ .nil) => true
  | .negate, .cons _ .nil => true
  | _, _ => false

/-- What a good function returns. -/
def funReturns : Fun → Ctype
  | .modular _ signedp width => widthCtype signedp width
  | .ashLeftMod signedp | .ashMod signedp | .ashIntoWordMod signedp =>
    widthCtype signedp (ashWidth signedp)
  | _ => integerCtype

section Cut

variable (kind : ModularKind) (signedp : Bool) (width : ℕ)

mutual

/-- The loop of `cut-lvar`. -/
def cutUses (resultWidth : ℕ) : Lvar → CutUses
  | .use node =>
    let cut := cutNode resultWidth node
    ⟨.use cut.node, cut.change, !(cut.handled || fitsWidth signedp width cut.node.type), cut.wide⟩
  | .uses branch first rest =>
    let cut := cutUses resultWidth first
    let cut' := cutUses resultWidth rest
    ⟨.uses branch cut.lvar cut'.lvar, cut.didSomething || cut'.didSomething,
      cut.mustInsert || cut'.mustInsert, cut.overWide || cut'.overWide⟩

def cutNode (resultWidth : ℕ) : Node → CutNode
  | .ref leaf type => ⟨.ref leaf type, false, false, false⟩
  | .constant value =>
    let newValue := cutValue signedp width value
    ⟨.constant newValue, true, value ≠ newValue, false⟩
  | .combination .full name args type => ⟨.combination .full name args type, false, false, false⟩
  | .combination .known name args type =>
    match findModularVersion registry name kind signedp width with
    | none => ⟨.combination .known name args type, false, false, false⟩
    | some version =>
      if nothingToDo name signedp width type then ⟨.combination .known name args type,
        true, false, false⟩
      else
        match version with
        | .good =>
          let cut := cutArgs resultWidth (argDests name args) args
          ⟨.combination .known name cut.args (if cut.didSomething then funReturns name else type),
            true, cut.didSomething, cut.overWide⟩
        | .info mfi =>
          let cut := cutArgs resultWidth [] args
          let name := Fun.modular name mfi.signedp mfi.width
          ⟨.combination .full name cut.args (funReturns name), true, true, true⟩
        | .ashOptimizer => cutAshArgs name type resultWidth args
  | .cast integerp almostImmediatelyUsed value type =>
    if integerp then
      let cut := cutCastUses almostImmediatelyUsed resultWidth value
      ⟨.cast integerp almostImmediatelyUsed cut.1 (if cut.2 then integerCtype else type),
        false, false, false⟩
    else ⟨.cast integerp almostImmediatelyUsed value type, false, false, false⟩

/-- The optimizer of `ash`, for a node with these arguments. -/
def cutAshArgs (name : Fun) (type : Ctype) (resultWidth : ℕ) : Args → CutNode
  | .cons integer (.cons count .nil) =>
    match cutAsh signedp width resultWidth integer count with
    | none => ⟨.combination .known name (.cons integer (.cons count .nil)) type,
      false, false, false⟩
    | some (version, cuts) =>
      let integer :=
        if cuts then (insertLvarCut signedp width .other true (cutUses width integer)).lvar
          else integer
      ⟨.combination .full version (.cons integer (.cons count .nil)) (funReturns version),
        true, true, true⟩
  | args => ⟨.combination .known name args type, false, false, false⟩

/-- The loop over the arguments of a combination. -/
def cutArgs (resultWidth : ℕ) (dests : List Dest) : Args → CutArgs
  | .nil => ⟨.nil, false, false⟩
  | .cons arg rest =>
    let cut := insertLvarCut signedp width (dests.headD .other) false (cutUses resultWidth arg)
    let cut' := cutArgs resultWidth dests.tail rest
    ⟨.cons cut.lvar cut'.args, cut.didSomething || cut'.didSomething, cut.overWide || cut'.overWide⟩

/-- The loop over the uses of the value of a cast, with whether a use was cut. -/
def cutCastUses (almostImmediatelyUsed : Bool) (resultWidth : ℕ) : Lvar → Lvar × Bool
  | .use (.combination kind' name args type) =>
    if castCombination name args && almostImmediatelyUsed then
      let cut := cutNode resultWidth (.combination kind' name args type)
      (.use cut.node, cut.handled)
    else (.use (.combination kind' name args type), false)
  | .use node => (.use node, false)
  | .uses branch first rest =>
    let cut := cutCastUses almostImmediatelyUsed resultWidth first
    let cut' := cutCastUses almostImmediatelyUsed resultWidth rest
    (.uses branch cut.1 cut'.1, cut.2 || cut'.2)

end

end Cut

/-- `cut-to-width` of an lvar with the destination given. -/
def cutToWidth (lvar : Lvar) (dest : Dest) (kind : ModularKind) (width : ℕ) (signedp : Bool)
    (resultWidth : ℕ) : Lvar :=
  (insertLvarCut signedp width dest true
    (cutUses registry kind signedp width resultWidth lvar)).lvar

/-- The `logand` optimizer: the arguments of a node of the type given. -/
def logandOptimizer (x y : Lvar) (resultType : Ctype) : Lvar × Lvar :=
  match integerTypeNumericBounds resultType with
  | (some low, some high) =>
    if 0 ≤ low then
      let width := integerLength high
      match bestModularVersion registry width false with
      | some (w, kind, signedp) =>
        (cutToWidth registry x ((constantLvar y).elim .other .logand) kind
          (if signedp then w else width) signedp width,
          cutToWidth registry y .other kind (if signedp then w else width) signedp width)
      | none => (x, y)
    else (x, y)
  | _ => (x, y)

/-- The `mask-signed-field` optimizer: the second argument. -/
def maskSignedFieldOptimizer (width x : Lvar) (resultType : Ctype) : Lvar :=
  match integerTypeNumericBounds resultType with
  | (some low, some high) =>
    match bestModularVersion registry (1 + max (integerLength high) (integerLength low)) true with
    | some (w, kind, _) =>
      cutToWidth registry x ((constantLvar width).elim .other .maskSignedField) kind w true w
    | none => x
  | _ => x

def logiorCutWidth (resultType : Ctype) : Option (ℕ × ModularKind × Bool) :=
  match integerTypeNumericBounds resultType with
  | (some low, some high) =>
    if high ≤ 0 then bestModularVersion registry (1 + integerLength low) true else none
  | _ => none

/-- The `logior` optimizer: the arguments. -/
def logiorOptimizer (x y : Lvar) (resultType : Ctype) : Lvar × Lvar :=
  match logiorCutWidth registry resultType with
  | some (w, kind, _) =>
    (cutToWidth registry x .other kind w true w, cutToWidth registry y .other kind w true w)
  | none => (x, y)

end Sbcl.Compiler.Modarith
