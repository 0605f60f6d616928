import Sbcl.Object

/-!
# 1-2 brother trees

`code/brothertree.lisp`. The lisp nodes are untyped: the temporary `L2` leaf and `N3` node of
insertion are constructors beside the unary and binary ones. A binary node without children is
stored without its child slots (`fringeBinaryNodeP`); both forms are `N2 nil key nil` here. An
`etypecase` without a matching clause and a failed `(the null ..)` are the errors of `Err`.
-/

namespace Sbcl

inductive Brothertree where
  | nil
  | L2 (key : Word)
  | N1 (child : Brothertree)
  | N2 (left : Brothertree) (key : Word) (right : Brothertree)
  | N3 (left : Brothertree) (key1 : Word) (middle : Brothertree) (key2 : Word) (right : Brothertree)
  deriving DecidableEq

namespace Brothertree

inductive Err where
  /-- An `etypecase` fell through. -/
  | typeError
  /-- `(the null x)` of something else. -/
  | notNull
  deriving DecidableEq

def unaryNodeP : Brothertree → Bool
  | N1 _ => true
  | _ => false

def binaryNodeP : Brothertree → Bool
  | N2 .. => true
  | _ => false

def theNull : Brothertree → Except Err Brothertree
  | nil => .ok nil
  | _ => .error .notNull

namespace Insert

/-- The local function `|n1|` of `insert`. -/
def n1 : Brothertree → Brothertree
  | L2 a => N2 nil a nil
  | N3 t1 a1 t2 a2 t3 => N2 (N2 t1 a1 t2) a2 (N1 t3)
  | x => N1 x

/-- The local function `|n2|` of `insert`. -/
def n2 (left : Brothertree) (key : Word) (right : Brothertree) : Except Err Brothertree :=
  match left, right with
  | L2 a1, t1 => do return N3 nil a1 nil key (← theNull t1)
  | N3 t1 a1 t2 a2 t3, N1 t4 => .ok (N2 (N2 t1 a1 t2) a2 (N2 t3 key t4))
  | N3 t1 a1 t2 a2 t3, N2 l k r => .ok (N3 (N2 t1 a1 t2) a2 (N1 t3) key (N2 l k r))
  | t1, L2 a2 => do return N3 (← theNull t1) key nil a2 nil
  | N1 t1, N3 t2 a2 t3 a3 t4 => .ok (N2 (N2 t1 key t2) a2 (N2 t3 a3 t4))
  | N2 l k r, N3 t2 a2 t3 a3 t4 => .ok (N3 (N2 l k r) key (N1 t2) a2 (N2 t3 a3 t4))
  | left, right => .ok (N2 left key right)

/-- Find the insertion point. -/
def ins (a : Word) : Brothertree → Except Err Brothertree
  | N2 l b r => if a ≤ b then do n2 (← ins a l) b r else do n2 l b (← ins a r)
  | N1 child => do return n1 (← ins a child)
  | nil => .ok (L2 a)
  | _ => .error .typeError

def root : Brothertree → Brothertree
  | L2 a => N2 nil a nil
  | N3 t1 a1 t2 a2 t3 => N2 (N2 t1 a1 t2) a2 (N1 t3)
  | x => x

end Insert

def insert (a : Word) (tree : Brothertree) : Except Err Brothertree := do
  return Insert.root (← Insert.ins a tree)

namespace Delete

/-- The local function `|n2|` of `delete`: the `pattern-case` clauses in their order. -/
def n2 (left : Brothertree) (key : Word) (right : Brothertree) : Brothertree :=
  match left, right with
  | N1 t1, N1 t2 => N1 (N2 t1 key t2) -- case 1
  | N1 (N1 t1), N2 (N1 t2) a2 (N2 l k r) => N1 (N2 (N2 t1 key t2) a2 (N2 l k r)) -- case 2
  | N1 (N1 t1), N2 (N2 t2 a2 t3) a3 (N1 t4) => N1 (N2 (N2 t1 key t2) a2 (N2 t3 a3 t4)) -- case 3
  | N1 (N1 t1), N2 (N2 l k r) a2 (N2 l' k' r') => -- case 4
    N2 (N2 (N1 t1) key (N2 l k r)) a2 (N1 (N2 l' k' r'))
  | N2 (N1 t1) a1 (N2 t2 a2 t3), N1 (N1 t4) => N1 (N2 (N2 t1 a1 t2) a2 (N2 t3 key t4)) -- case 5
  | N2 (N2 l k r) a1 (N1 t2), N1 (N1 t3) => N1 (N2 (N2 l k r) a1 (N2 t2 key t3)) -- case 6
  | N2 (N2 l k r) a1 (N2 l' k' r'), N1 (N1 t3) => -- case 7
    N2 (N1 (N2 l k r)) a1 (N2 (N2 l' k' r') key (N1 t3))
  | left, right => N2 left key right -- case 8

def splitMin : Brothertree → Except Err (Option Word × Brothertree)
  | nil => .ok (none, nil)
  | N1 child => do
    match ← splitMin child with
    | (none, _) => return (none, nil)
    | (some a, t') => return (some a, N1 t')
  | N2 t1 a1 t2 => do
    match ← splitMin t1 with
    | (none, _) => return (some a1, N1 t2)
    | (some a, t1') => return (some a, n2 t1' a1 t2)
  | _ => .error .typeError

def del (a : Word) : Brothertree → Except Err Brothertree
  | N2 l b r =>
    if a < b then do return n2 (← del a l) b r
    else if a > b then do return n2 l b (← del a r)
    else do
      match ← splitMin r with
      | (none, _) => return N1 l
      | (some a', r') => return n2 l a' r'
  | N1 child => do return N1 (← del a child)
  | nil => .ok nil
  | _ => .error .typeError

def root : Brothertree → Brothertree
  | N1 child => child
  | x => x

end Delete

def delete (a : Word) (tree : Brothertree) : Except Err Brothertree := do
  return Delete.root (← Delete.del a tree)

end Brothertree

end Sbcl
