import Mathlib.Data.List.Basic

/-!
# Backquote (code/backq.lisp)

* `Sexpr` : what the reader builds, with the commas as structures of their own;
* `qqFoldSuffix`, `qqTemplate1` : the suffix of constants, the final splice, and the calls of the
  list constructors;
* `qqTemplateToSexpr` : the expansion of a template, which recurses over its conses, vectors and
  commas;
* `expandQuasiquote` : the compiler macro and the macro.

Lists are values without identity, so what NCONC destroys is not seen.
-/

namespace Sbcl.Backq

/-! ## S-expressions -/

/-- The functions that the expansions call; the capitalized ones are the foldable versions of the
compiler macro. -/
inductive Fn where
  | list | listStar | append | vector
  | foldableList | foldableListStar | foldableAppend | foldableVector
  | nconc | coerce
  | unquote | unquoteNsplice | unquoteSplice | unquoteStar | unquoteStarSplice
deriving DecidableEq

inductive Symbol where
  | nil
  | t
  | quote
  | quasiquote
  | simpleVector
  | fn (f : Fn)
  | other (name : String)
deriving DecidableEq

/-- `comma-kind` : 0, `!+comma-dot+` and `!+comma-at+`. -/
inductive CommaKind where
  | eval
  | dot
  | atSign
deriving DecidableEq

/-- The atoms that are neither symbols nor simple vectors nor commas are of the type `A`. -/
inductive Sexpr (A : Type) where
  | symbol (name : Symbol)
  | keyword (name : String)
  | atom (value : A)
  | cons (car cdr : Sexpr A)
  | vector (elements : List (Sexpr A))
  | comma (expr : Sexpr A) (kind : CommaKind)

variable {A : Type}

namespace Sexpr

def nil : Sexpr A := .symbol .nil

/-- The list of the elements with a last cdr, as by `list*`. -/
def dotted : List (Sexpr A) → Sexpr A → Sexpr A
  | [], last => last
  | x :: xs, last => .cons x (dotted xs last)

def ofList (xs : List (Sexpr A)) : Sexpr A := dotted xs nil

/-- `list*`, which is called with one argument at least. -/
def listStar : List (Sexpr A) → Sexpr A
  | [] => nil
  | [x] => x
  | x :: xs => .cons x (listStar xs)

def isSymbol (name : Symbol) : Sexpr A → Bool
  | .symbol s => s = name
  | _ => false

def isAtom : Sexpr A → Bool
  | .cons _ _ => false
  | _ => true

/-- `(quote x)` -/
def quoted (x : Sexpr A) : Sexpr A := ofList [.symbol .quote, x]

/-- `(f . args)` -/
def call (f : Fn) (args : List (Sexpr A)) : Sexpr A := .cons (.symbol (.fn f)) (ofList args)

end Sexpr

/-- How a form is incorporated in its parent. `nil` is the missing operator of a form that was a
splice. -/
inductive Operator where
  | eval
  | quote
  | nconc
  | append
  | nil
deriving DecidableEq

structure Subform (A : Type) where
  exp : Sexpr A
  operator : Operator

namespace Subform

/-- `qq-subform-splicing-p` -/
def splicing (subform : Subform A) : Bool := subform.operator = .append || subform.operator = .nconc

end Subform

/-- The operator of a comma of the outermost level. -/
def CommaKind.operator : CommaKind → Operator
  | .eval => .eval
  | .dot => .nconc
  | .atSign => .append

/-- `comma-constructor` -/
def CommaKind.constructor : CommaKind → Fn
  | .eval => .unquote
  | .dot => .unquoteNsplice
  | .atSign => .unquoteSplice

def CommaKind.splicing (kind : CommaKind) : Bool := kind ≠ .eval

/-- The subform of a comma below the outermost level, from that of its expression. -/
def commaData (kind : CommaKind) (sub : Subform A) : Subform A :=
  match sub.operator with
  | .quote => ⟨.call kind.constructor [.quoted sub.exp], .eval⟩
  | .eval => ⟨.call kind.constructor [sub.exp], .eval⟩
  | operator => ⟨.call (if kind.splicing then .unquoteStarSplice else .unquoteStar) [sub.exp],
    operator⟩

/-- The longest suffix of constants. -/
def constTailp : List (Subform A) → List (Subform A)
  | [] => []
  | subform :: rest =>
    let constPart := constTailp rest
    if constPart.length = rest.length ∧ subform.operator = .quote then subform ::
      rest else constPart

/-- Only the last subform splices. -/
def convertibleP : List (Subform A) → Bool
  | [] => false
  | [subform] => subform.splicing
  | subform :: rest => !subform.splicing && convertibleP rest

/-- The constant suffix as one quoted tail. -/
def foldConstants (subforms : List (Subform A)) (dottedP : Bool) : List (Subform A) × Bool :=
  let constTail := if subforms.length ≤ 1 then [] else constTailp subforms
  match constTail with
  | [] => (subforms, dottedP)
  | _ =>
    let constants := constTail.map Subform.exp
    let newTail := if dottedP then Sexpr.listStar constants else Sexpr.ofList constants
    (subforms.take (subforms.length - constTail.length) ++ [⟨newTail, .quote⟩], true)

/-- The last subform as the cdr of the last cons. -/
def unspliceLast : List (Subform A) → List (Subform A)
  | [] => []
  | [tail] => [⟨tail.exp, .nil⟩]
  | subform :: rest => subform :: unspliceLast rest

def qqFoldSuffix (subforms : List (Subform A)) (dottedP vectorp : Bool) : List (Subform A) × Bool :=
  let (subforms, dottedP) := foldConstants subforms dottedP
  if !dottedP && !vectorp && convertibleP subforms then (unspliceLast subforms,
    true) else (subforms, dottedP)

/-! ## Rendering -/

/-- The atom is self-evaluating. -/
def atomConstP : Sexpr A → Bool
  | .symbol s => s = .t || s = .nil
  | .cons _ _ => false
  | _ => true

namespace Subform

def constP (subform : Subform A) : Bool :=
  subform.operator = .quote ||
    match subform.exp with
    | .cons (.symbol .quote) (.cons _ (.symbol .nil)) => true
    | exp => atomConstP exp

/-- Given that it is constant. -/
def constVal (subform : Subform A) : Sexpr A :=
  if subform.operator = .quote then subform.exp
  else
    match subform.exp with
    | .cons _ (.cons second _) => second
    | exp => exp

def render (subform : Subform A) : Sexpr A :=
  if subform.operator = .quote ∧ atomConstP subform.exp = false then .quoted subform.exp
    else subform.exp

/-- The function that adds the subform to a tail. -/
def consFn (subform : Subform A) : Fn :=
  match subform.operator with
  | .append => .foldableAppend
  | .nconc => .nconc
  | _ => .foldableListStar

end Subform

def normalizeFn (compilerP : Bool) (f : Fn) : Fn :=
  if compilerP then f
  else
    match f with
    | .foldableAppend => .append
    | .foldableList => .list
    | .foldableListStar => .listStar
    | .foldableVector => .vector
    | f => f

/-- `(f head tail)`, merged with a tail that calls the same function. -/
def mergeCall (f : Fn) (head tail : Sexpr A) : Sexpr A :=
  match tail with
  | .cons (.symbol (.fn g)) args => if g = f then .cons (.symbol (.fn f)) (.cons head args)
    else .call f [head, tail]
  | _ => .call f [head, tail]

/-- A form for subforms of which one splices. -/
def recurse (compilerP dotP vectorp : Bool) : List (Subform A) → Sexpr A
  | [] => .nil
  | [elt] =>
    if dotP || elt.splicing then
      if vectorp then .call (normalizeFn compilerP .foldableAppend) [elt.render,
        .nil] else elt.render
    else if elt.constP then .quoted (.ofList [elt.constVal])
    else .call (normalizeFn compilerP .foldableList) [elt.render]
  | elt :: rest => mergeCall (normalizeFn compilerP elt.consFn) elt.render
    (recurse compilerP dotP vectorp rest)

/-- The part of `qq-template-1` after the subforms are there. -/
def qqTemplate1 (compilerP vectorp : Bool) (subforms : List (Subform A))
    (dotP : Bool) : Subform A :=
  if subforms.any Subform.splicing then
    let x := recurse compilerP dotP vectorp subforms
    ⟨if vectorp then .call .coerce [x, .quoted (.symbol .simpleVector)] else x, .eval⟩
  else if subforms.all Subform.constP then
    let constants := subforms.map Subform.constVal
    ⟨if vectorp then .vector constants else if dotP then .listStar constants else .ofList constants,
      .quote⟩
  else
    let f := if vectorp then Fn.foldableVector else if dotP then Fn.foldableListStar
      else Fn.foldableList
    ⟨.call (normalizeFn compilerP f) (subforms.map Subform.render), .eval⟩

/-! ## Templates -/

inductive QqError (A : Type) where
  /-- "~S is not a well-formed backquote expression" -/
  | notWellFormed (original : Sexpr A)
  /-- The ECASE of `expand-quasiquote`. -/
  | splicingAtToplevel

/-- The template of a list whose first element is QUASIQUOTE is one level deeper. -/
def depthBelow (depth : ℕ) (car : Sexpr A) : ℕ :=
  if car.isSymbol .quasiquote then depth + 1 else depth

/-- A list from the subforms of its elements. -/
def qqList (compilerP : Bool) (first : Subform A) (rest : List (Subform A) × Bool) : Subform A :=
  let (subforms, dotP) := qqFoldSuffix (first :: rest.1) rest.2 false
  qqTemplate1 compilerP false subforms dotP

/-- A vector is folded when it needs an interim list anyway. -/
def qqVector (compilerP : Bool) (elements : List (Subform A)) : Subform A :=
  if elements.any Subform.splicing then
    let (subforms, dotP) := qqFoldSuffix elements false true
    qqTemplate1 compilerP true subforms dotP
  else qqTemplate1 compilerP true elements false

mutual

/-- `qq-template-to-sexpr`, where `qq-map-template-to-list` and `qq-template-1` have been merged in.
-/
def qqTemplateToSexpr (compilerP : Bool) : ℕ → Sexpr A → Except (QqError A) (Subform A)
  | depth, .cons car cdr => do
      let first ← qqTemplateToSexpr compilerP (depthBelow depth car) car
      let rest ← qqMapRest compilerP (.cons car cdr) (depthBelow depth car) cdr
      return qqList compilerP first rest
  | depth, .vector elements => do
      let subforms ← qqMapElements compilerP depth elements
      return qqVector compilerP subforms
  | 0, .comma expr kind => return ⟨expr, kind.operator⟩
  | depth + 1, .comma expr kind => do
      let sub ← qqTemplateToSexpr compilerP depth expr
      return commaData kind sub
  | _, expr => return ⟨expr, .quote⟩

/-- The loop of `qq-map-template-to-list` over the list `original`, after an element was popped. -/
def qqMapRest (compilerP : Bool) (original : Sexpr A) : ℕ → Sexpr A →
    Except (QqError A) (List (Subform A) × Bool)
  | depth, .cons car cdr => do
      if car.isSymbol .quasiquote then
        let first ← qqTemplateToSexpr compilerP (depth + 1) car
        let rest ← qqMapRest compilerP (.cons car cdr) (depth + 1) cdr
        return ([qqList compilerP first rest], true)
      else
        let first ← qqTemplateToSexpr compilerP depth car
        let rest ← qqMapRest compilerP original depth cdr
        return (first :: rest.1, rest.2)
  | depth, .vector elements => do
      let subforms ← qqMapElements compilerP depth elements
      return ([qqVector compilerP subforms], true)
  | depth, .comma expr kind =>
    if kind.splicing then .error (.notWellFormed original)
    else
      -- (A B . ,X) becomes (A B ,@X).
      match depth with
      | 0 => return ([⟨expr, .append⟩], false)
      | depth + 1 => do
          let sub ← qqTemplateToSexpr compilerP depth expr
          return ([commaData .atSign sub], false)
  | _, .symbol .nil => return ([], false)
  | _, input => return ([⟨input, .quote⟩], true)

def qqMapElements (compilerP : Bool) : ℕ → List (Sexpr A) → Except (QqError A) (List (Subform A))
  | _, [] => return []
  | depth, x :: xs => do
      let first ← qqTemplateToSexpr compilerP depth x
      let rest ← qqMapElements compilerP depth xs
      return first :: rest

end

def expandQuasiquote (compilerP : Bool) (thing : Sexpr A) : Except (QqError A) (Sexpr A) := do
  let sub ← qqTemplateToSexpr compilerP 0 thing
  match sub.operator with
  | .eval => return sub.exp
  | .quote => return .quoted sub.exp
  | _ => .error .splicingAtToplevel

end Sbcl.Backq
