import Sbcl.Pathnames.Component

/-!
# Matching of pathname components (code/target-pathname.lisp)

* `matchesFrom`, `patternMatches` : whether a pattern has a string, and the substrings of its wild
  pieces;
* `componentsMatch` : one component, which must not be of a type that the function does not take;
* `directoryComponentsMatch` : the lists of directories.

Whether two lists are the same object is a parameter. Directories are lists, and not `:wild`. A call
with an argument of another type than the declared one is `none`.
-/

namespace Sbcl.Pathnames

def maybePrepend (subs : List (List Char)) (curSub : Bool) (chars : List Char) : List (List Char) :=
  if curSub then chars.reverse :: subs else subs

/-- `matches` in `pattern-matches`, for what is left of the string. -/
def matchesFrom : List Piece → List Char → List (List Char) → Bool → List Char →
    Option (List (List Char))
  | [], string, subs, curSub, chars =>
    if string = [] then some (maybePrepend subs curSub chars) else none
  | .string piece :: pieces, string, subs, curSub, chars =>
    if piece.length ≤ string.length ∧ string.take piece.length = piece then
      matchesFrom pieces (string.drop piece.length) (maybePrepend subs curSub chars) false []
    else none
  | .characterSet cs :: pieces, string, subs, _, chars =>
    match string with
    | [] => none
    | c :: rest => if c ∈ cs then matchesFrom pieces rest subs true (c :: chars) else none
  | .singleCharWild :: pieces, string, subs, _, chars =>
    match string with
    | [] => none
    | c :: rest => matchesFrom pieces rest subs true (c :: chars)
  | .multiCharWild :: pieces, string, subs, _, chars =>
    match matchesFrom pieces string subs true chars with
    | some newSubs => some newSubs
    | none =>
      match string with
      | [] => none
      | c :: rest => matchesFrom (.multiCharWild :: pieces) rest subs true (c :: chars)
termination_by pieces string => (pieces.length, string.length)

def patternMatches (pattern : List Piece) (string : List Char) : Bool × List (List Char) :=
  match matchesFrom pattern string [] false [] with
  | some subs => (true, subs.reverse)
  | none => (false, [])

/-! ## Directories -/

/-- An element of the list of a directory. -/
inductive DirElement where
  | root (r : Root)
  | component (d : DirComponent)
deriving DecidableEq

/-- The list of a directory. -/
def directoryList : Option Directory → List DirElement
  | none => []
  | some d => .root d.root :: d.dirs.map .component

/-- The type that `components-match` declares for its arguments has no conses. -/
def DirElement.isCons : DirElement → Bool
  | .component (.homeOf _) => true
  | _ => false

def componentsMatch (thing wild : DirElement) : Option Bool :=
  if thing.isCons ∨ wild.isCons then none
  else if thing = wild ∨ wild = .component (.piece .wild) then some true
  else
    match thing, wild with
    | .component (.piece (.string s)), .component (.piece (.pattern pieces)) =>
      some (patternMatches pieces s).1
    | .component (.piece (.string s)), .component (.piece (.string s')) => some (s = s')
    | .component (.piece (.pattern pieces)), .component (.piece (.pattern pieces')) =>
      some (compareComponent (some (.pattern pieces)) (some (.pattern pieces')))
    | _, _ => some false

/-- The loop for `:wild-inferiors`. -/
def inferiorsLoop (matchSubdirs : List DirElement → Option Bool) : List DirElement → Option Bool
  | [] => do
      if ← matchSubdirs [] then some true else some false
  | t :: thing => do
      if ← matchSubdirs (t :: thing) then some true
      else if thing = [] then some false
      else inferiorsLoop matchSubdirs thing

/-- Where the first element is `:absolute` or `:relative`, and the second one `:wild-inferiors`. -/
def rootedInferiors : List DirElement → Bool
  | .root _ :: .component .wildInferiors :: _ => true
  | _ => false

variable (eq : List DirElement → List DirElement → Bool)

def directoryComponentsMatch (thing : List DirElement) : List DirElement → Option Bool
  | [] => if eq thing [] then some true else some false
  | wild1 :: rest =>
    if eq thing (wild1 :: rest) then some true
    else if thing = [] ∧ rootedInferiors (wild1 :: rest) then some true
    else if wild1 = .component .wildInferiors then
      if rest = [] then some true else inferiorsLoop (fun thing =>
        directoryComponentsMatch thing rest) thing
    else
      match thing with
      | [] => some false
      | thing1 :: thingRest => do
          if ← componentsMatch thing1 wild1 then directoryComponentsMatch thingRest rest
            else some false

end Sbcl.Pathnames
