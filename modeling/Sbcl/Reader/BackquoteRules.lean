import Sbcl.Reader.Backquote

/-!
# The meaning of backquote

* `evalForm` : evaluation, where the functions of the expansions have their standard meaning and
  every other form has the value that the environment assigns to it;
* `element`, `tail` : the formal rules of the standard for a template, at any depth of backquotes;
* `rebuilt` : the template with the commas of the inner levels as the expansion writes them.
-/

namespace Sbcl.Backq

variable {A : Type}

namespace Sexpr

/-- The elements of a proper list. -/
def elements : Sexpr A → Option (List (Sexpr A))
  | .symbol .nil => some []
  | .cons car cdr => (elements cdr).map (car :: ·)
  | _ => none

/-- The cars of a list, which may be dotted. -/
def cars : Sexpr A → List (Sexpr A)
  | .cons car cdr => car :: cars cdr
  | _ => []

end Sexpr

/-- `append`, where the last argument may be anything. -/
def appendArgs : List (Sexpr A) → Option (Sexpr A)
  | [] => some .nil
  | [x] => some x
  | x :: xs => do
      let front ← x.elements
      let rest ← appendArgs xs
      return .dotted front rest

/-- `nconc`, which drops the last cdr of each list but the last. -/
def nconcArgs : List (Sexpr A) → Option (Sexpr A)
  | [] => some .nil
  | [x] => some x
  | x :: xs => do
      let rest ← nconcArgs xs
      if x.isAtom && !x.isSymbol .nil then none else return .dotted x.cars rest

def Fn.apply : Fn → List (Sexpr A) → Option (Sexpr A)
  | .list, args | .foldableList, args => some (.ofList args)
  | .listStar, args | .foldableListStar, args => if args = [] then none else some (.listStar args)
  | .append, args | .foldableAppend, args => appendArgs args
  | .vector, args | .foldableVector, args => some (.vector args)
  | .nconc, args => nconcArgs args
  | .coerce, [.vector xs, .symbol .simpleVector] => some (.vector xs)
  | .coerce, [x, .symbol .simpleVector] => x.elements.map .vector
  | .unquote, [x] => some (.comma x .eval)
  | .unquoteNsplice, [x] => some (.comma x .dot)
  | .unquoteSplice, [x] => some (.comma x .atSign)
  | .unquoteStar, [x] => x.elements.map fun xs => .ofList (xs.map (.comma · .eval))
  | .unquoteStarSplice, [x] => x.elements.map fun xs => .ofList (xs.map (.comma · .atSign))
  | _, _ => none

mutual

/-- The value of a form. Atoms that are no symbols, keywords, NIL and T evaluate to themselves. -/
def evalForm (env : Sexpr A → Option (Sexpr A)) : Sexpr A → Option (Sexpr A)
  | .symbol s => if atomConstP (.symbol s : Sexpr A) then some (.symbol s) else env (.symbol s)
  | .cons (.symbol .quote) (.cons x (.symbol .nil)) => some x
  | .cons (.symbol (.fn f)) args => do
      let values ← evalArgs env args
      f.apply values
  | .cons f args => env (.cons f args)
  | form => some form

def evalArgs (env : Sexpr A → Option (Sexpr A)) : Sexpr A → Option (List (Sexpr A))
  | .symbol .nil => some []
  | .cons form rest => do
      let value ← evalForm env form
      let values ← evalArgs env rest
      return value :: values
  | _ => none

end

/-! ## The formal rules -/

mutual

/-- `[x]` : the elements that `x` stands for in a list of the template. -/
def element (env : Sexpr A → Option (Sexpr A)) : ℕ → Sexpr A → Option (List (Sexpr A))
  | depth, .cons car cdr => do
      let front ← element env (depthBelow depth car) car
      let rest ← tail env (depthBelow depth car) cdr
      return [.dotted front rest]
  | depth, .vector xs => do
      let values ← vectorElements env depth xs
      return [.vector values]
  | 0, .comma expr kind => do
      let value ← evalForm env expr
      if kind.splicing then value.elements else return [value]
  | depth + 1, .comma expr kind => do
      -- The comma is data, and only what is of the outermost level in its expression is
      -- substituted.
      let values ← element env depth expr
      return values.map (.comma · kind)
  | _, x => some [x]

/-- A whole template, or what stands after the dot of a list. -/
def tail (env : Sexpr A → Option (Sexpr A)) : ℕ → Sexpr A → Option (Sexpr A)
  | depth, .cons car cdr => do
      let front ← element env (depthBelow depth car) car
      let rest ← tail env (depthBelow depth car) cdr
      return .dotted front rest
  | depth, .vector xs => do
      let values ← vectorElements env depth xs
      return .vector values
  | depth, .comma expr kind =>
    if kind.splicing then none
    else
      match depth with
      | 0 => evalForm env expr
      | depth + 1 => do
          match ← element env depth expr with
          | [value] => return .comma value kind
          | _ => none
  | _, x => some x

def vectorElements (env : Sexpr A → Option (Sexpr A)) : ℕ → List (Sexpr A) → Option (List (Sexpr A))
  | _, [] => some []
  | depth, x :: xs => do
      let front ← element env depth x
      let rest ← vectorElements env depth xs
      return front ++ rest

end

/-- The expression is a comma, through commas, of the outermost level that splices. -/
def splices : ℕ → Sexpr A → Bool
  | 0, .comma _ kind => kind.splicing
  | depth + 1, .comma expr _ => splices depth expr
  | _, _ => false

mutual

/-- A comma of an inner level around a splice is either `,` or `,@`. -/
def rebuiltElement : ℕ → Sexpr A → Sexpr A
  | depth, .cons car cdr =>
  .cons (rebuiltElement (depthBelow depth car) car) (rebuilt (depthBelow depth car) cdr)
  | depth, .vector xs => .vector (rebuiltElements depth xs)
  | depth + 1, .comma expr kind =>
    .comma (rebuiltElement depth expr)
      (if kind.splicing && splices depth expr then .atSign else kind)
  | _, x => x

/-- A comma of an inner level after a dot is the last element of the list, as `,@`. -/
def rebuilt : ℕ → Sexpr A → Sexpr A
  | depth, .cons car cdr =>
  .cons (rebuiltElement (depthBelow depth car) car) (rebuilt (depthBelow depth car) cdr)
  | depth, .vector xs => .vector (rebuiltElements depth xs)
  | depth + 1, .comma expr kind =>
    if kind.splicing then .comma expr kind else .cons
      (.comma (rebuiltElement depth expr) .atSign) .nil
  | _, x => x

def rebuiltElements : ℕ → List (Sexpr A) → List (Sexpr A)
  | _, [] => []
  | depth, x :: xs => rebuiltElement depth x :: rebuiltElements depth xs

end

end Sbcl.Backq
