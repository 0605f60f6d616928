import Mathlib.Data.List.Basic

/-!
# Components of pathnames (code/target-pathname.lisp)

* `Piece`, `Component`, `Directory` : patterns, names and types, directories;
* `compareComponent` : with the comparison of patterns.
-/

namespace Sbcl.Pathnames

/-- What a pattern is made of. -/
inductive Piece where
  | string (s : List Char)
  | singleCharWild
  | multiCharWild
  | characterSet (cs : List Char)
deriving DecidableEq

/-- A name, a type, or a piece of a directory. -/
inductive Component where
  | string (s : List Char)
  | wild
  | pattern (pieces : List Piece)
deriving DecidableEq

inductive DirComponent where
  | up
  | back
  | wildInferiors
  | home
  | homeOf (user : List Char)
  | piece (c : Component)
deriving DecidableEq

inductive Root where
  | absolute
  | relative
deriving DecidableEq

structure Directory where
  root : Root
  dirs : List DirComponent
deriving DecidableEq

inductive Version where
  | newest
deriving DecidableEq

/-- The values of a parse after the host and the device. -/
structure Components where
  directory : Option Directory
  name : Option Component
  type : Option Component
  version : Option Version
deriving DecidableEq

/-- `compare-component` of the names and types: strings and pieces of patterns are compared by their
characters. -/
def compareComponent : Option Component → Option Component → Bool
  | none, none => true
  | some (.string s), some (.string s') => s = s'
  | some .wild, some .wild => true
  | some (.pattern pieces), some (.pattern pieces') =>
    pieces.length = pieces'.length && (pieces.zip pieces').all fun p => p.1 = p.2
  | _, _ => false

end Sbcl.Pathnames
