import Sbcl.Object

/-!
# Red/black trees

`code/redblack.lisp`: Okasaki insertion and Kahrs deletion. `define-tree-class` is a macro over the
key type and `lessp`; here the definitions take `lessp` and the key accessor of the data slot as
parameters, and `Word` and `Map` give the values of the two specialization packages.

A childless node is stored without its two child slots, which `left` and `right` then read as `nil`;
both forms are `node color nil data nil` here.
-/

namespace Sbcl

inductive Color where
  | red
  | black
  deriving DecidableEq

/-- An `rbnode`, or `nil` for the empty tree. -/
inductive Rbnode (D : Type) where
  | nil
  | node (color : Color) (left : Rbnode D) (data : D) (right : Rbnode D)
  deriving DecidableEq

namespace Rbnode

open Color

inductive Err where
  /-- A slot of `nil` was read, or `color-of` met `nil`. -/
  | typeError
  /-- An `aver` failed. -/
  | averFailed
  deriving DecidableEq

variable {D K : Type}

def redp : Rbnode D → Bool
  | node red _ _ _ => true
  | _ => false

def blackp : Rbnode D → Bool
  | node black _ _ _ => true
  | _ => false

def redNode (left : Rbnode D) (data : D) (right : Rbnode D) : Rbnode D := node red left data right

def blackNode (left : Rbnode D) (data : D) (right : Rbnode D) : Rbnode D :=
  node black left data right

def aver (b : Bool) : Except Err Unit := if b then .ok () else .error .averFailed

def blacken : Rbnode D → Rbnode D
  | nil => nil
  | node black l x r => node black l x r
  | node red l x r => blackNode l x r

def redden : Rbnode D → Except Err (Rbnode D)
  | nil => .error .typeError
  | node red l x r => .ok (node red l x r)
  | node black l x r => .ok (redNode l x r)

def balance (color : Color) (L : Rbnode D) (data : D) (R : Rbnode D) : Rbnode D :=
  match color with
  | red => redNode L data R
  | black =>
    match L, R with
    | node red (node red a x b) y c, d => redNode (blackNode a x b) y (blackNode c data d)
    | node red a x (node red b y c), d => redNode (blackNode a x b) y (blackNode c data d)
    | a, node red (node red b y c) z d => redNode (blackNode a data b) y (blackNode c z d)
    | a, node red b y (node red c z d) => redNode (blackNode a data b) y (blackNode c z d)
    | L, R => node black L data R

section Class
variable (lessp : K → K → Bool) (key : D → K)

/-- The local function `ins` of `insert`. -/
def ins (data : D) : Rbnode D → Rbnode D
  | nil => redNode nil data nil
  | node c a x b =>
    if lessp (key data) (key x) then balance c (ins data a) x b
    else if lessp (key x) (key data) then balance c a x (ins data b)
    else node c a data b

def insert (tree : Rbnode D) (data : D) : Rbnode D := blacken (ins lessp key data tree)

/-- Decrease the black height by 1. -/
def sub1 (tree : Rbnode D) : Except Err (Rbnode D) := do
  aver (blackp tree)
  redden tree

def balanceLeft (L : Rbnode D) (data : D) (R : Rbnode D) : Except Err (Rbnode D) :=
  if redp L then .ok (redNode (blacken L) data R)
  else if blackp R then do
    return balance black L data (← redden R)
  else
    match R with
    | node red (node black a y b) z c => do
      return redNode (blackNode L data a) y (balance black b z (← sub1 c))
    | _ => .error .averFailed

def balanceRight (L : Rbnode D) (data : D) (R : Rbnode D) : Except Err (Rbnode D) :=
  if redp R then .ok (redNode L data (blacken R))
  else if blackp L then do
    return balance black (← redden L) data R
  else
    match L with
    | node red a x (node black b y c) => do
      return redNode (balance black (← sub1 a) x b) y (blackNode c data R)
    | _ => .error .averFailed

def rbMerge : Rbnode D → Rbnode D → Except Err (Rbnode D)
  | nil, R => .ok R
  | L, nil => .ok L
  | node red a x b, node red c y d => do
    match ← rbMerge b c with
    | node red l z r => return redNode (redNode a x l) z (redNode r y d)
    | bc => return redNode a x (redNode bc y d)
  | node black a x b, node black c y d => do
    match ← rbMerge b c with
    | node red l z r => return redNode (blackNode a x l) z (blackNode r y d)
    | bc => balanceLeft a x (blackNode bc y d)
  | node black a x b, node red c y d => do
    return redNode (← rbMerge (node black a x b) c) y d
  | node red a x b, node black c y d => do
    return redNode a x (← rbMerge b (node black c y d))
termination_by L R => sizeOf L + sizeOf R

/-- `delete-left`, given `a` and the result of deleting in it. -/
def deleteLeft (a a' : Rbnode D) (y : D) (b : Rbnode D) : Except Err (Rbnode D) :=
  if blackp a then balanceLeft a' y b else .ok (redNode a' y b)

def deleteRight (a : Rbnode D) (y : D) (b b' : Rbnode D) : Except Err (Rbnode D) :=
  if blackp b then balanceRight a y b' else .ok (redNode a y b')

/-- The local function `del` of `delete`. -/
def del (k : K) : Rbnode D → Except Err (Rbnode D)
  | nil => .ok nil
  | node _ a y b =>
    if lessp k (key y) then do deleteLeft a (← del k a) y b
    else if lessp (key y) k then do deleteRight a y b (← del k b)
    else rbMerge a b

def delete (k : K) (tree : Rbnode D) : Except Err (Rbnode D) := do
  return blacken (← del lessp key k tree)

def findEq (k : K) : Rbnode D → Rbnode D
  | nil => nil
  | node c l x r =>
    if lessp k (key x) then findEq k l
    else if lessp (key x) k then findEq k r
    else node c l x r

/-- The loop of `find<=`. -/
def findLEIn (k : K) : Rbnode D → Rbnode D → Rbnode D
  | nil, best => best
  | node c l x r, best =>
    if lessp k (key x) then findLEIn k l best
    else if lessp (key x) k then findLEIn k r (node c l x r)
    else node c l x r

/-- Find a node with key less than or equal to `k` and as near it as possible. -/
def findLE (k : K) (tree : Rbnode D) : Rbnode D := findLEIn lessp key k tree nil

def findGEIn (k : K) : Rbnode D → Rbnode D → Rbnode D
  | nil, best => best
  | node c l x r, best =>
    if lessp k (key x) then findGEIn k l (node c l x r)
    else if lessp (key x) k then findGEIn k r best
    else node c l x r

/-- Find a node with key greater than or equal to `k` and as near it as possible. -/
def findGE (k : K) (tree : Rbnode D) : Rbnode D := findGEIn lessp key k tree nil

end Class

/-- `sb-rbtree.word::addr<`: fixnums ordered as unsigned addresses. -/
def addrLt (a b : Fixnum) : Bool := decide (a.getLispObjAddress < b.getLispObjAddress)

/-- The `<` of `sb-rbtree.map` trees. -/
def fixnumLt (a b : Fixnum) : Bool := decide (a.val < b.val)

end Rbnode

end Sbcl
