import Sbcl.Object
import Mathlib.Data.Tree.Basic

/-!
# The AVL tree of threads

`code/avltree.lisp`: a purely functional search tree keyed by words. Heights are not stored: each
rebalancing recomputes them through `avlBalanceFactor`. Accessors applied to `nil`, an `ecase`
without a matching clause and the duplicate-key `bug` are the errors of `Err`.
-/

namespace Sbcl

/-- An `avlnode`, or `nil` for the empty tree. -/
inductive Avltree (V : Type) where
  | nil
  | avlnode (key : Word) (data : V) (left right : Avltree V)
  deriving DecidableEq

namespace Avltree

inductive Err where
  /-- An `avlnode` accessor applied to `nil`. -/
  | typeError
  /-- An `ecase` that fell through. -/
  | ecaseFailure
  /-- `(bug "Duplicate key ~S" key)` -/
  | duplicateKey (key : Word)
  deriving DecidableEq

variable {V : Type}

def isNil : Avltree V → Bool
  | nil => true
  | avlnode .. => false

@[simp] theorem isNil_nil : isNil (nil : Avltree V) = true := rfl

@[simp] theorem isNil_avlnode (key : Word) (data : V) (left right : Avltree V) :
    isNil (avlnode key data left right) = false := rfl

/-- The local function `height` of `avl-balance-factor`. -/
def height : Avltree V → Int
  | nil => 0
  | avlnode _ _ left right => max (height left) (height right) + 1

/-- The key and data that a returned node carries. -/
def nodeEntry : Avltree V → Option (Word × V)
  | nil => none
  | avlnode key data _ _ => some (key, data)

/-- The in-order sequence of keys and data. -/
def entries : Avltree V → List (Word × V)
  | nil => []
  | avlnode key data left right => entries left ++ (key, data) :: entries right

/-- The tree as a plain binary tree of its entries. -/
def shape : Avltree V → BinaryTree (Word × V)
  | nil => .nil
  | avlnode key data left right => .node (key, data) (shape left) (shape right)

/-- The difference in left and right heights. -/
def avlBalanceFactor : Avltree V → Except Err Int
  | nil => .error .typeError
  | avlnode _ _ left right => .ok (height left - height right)

def avlRotateLeft : Avltree V → Except Err (Avltree V)
  | avlnode key data left (avlnode rkey rdata rleft rright) =>
    .ok (avlnode rkey rdata (avlnode key data left rleft) rright)
  | _ => .error .typeError

def avlRotateRight : Avltree V → Except Err (Avltree V)
  | avlnode key data (avlnode lkey ldata lleft lright) right =>
    .ok (avlnode lkey ldata lleft (avlnode key data lright right))
  | _ => .error .typeError

def avlFindmin : Avltree V → Except Err (Avltree V)
  | nil => .error .typeError
  | avlnode key data nil right => .ok (avlnode key data nil right)
  | avlnode _ _ left _ => avlFindmin left

def avlCount : Avltree V → Nat
  | nil => 0
  | avlnode _ _ left right => 1 + avlCount left + avlCount right

def avlInsertionRebalance : Avltree V → Except Err (Avltree V)
  | nil => .error .typeError
  | avlnode key data left right => do
    match ← avlBalanceFactor (avlnode key data left right) with
    | 2 => -- left heavy
      match ← avlBalanceFactor left with
      | 1 => avlRotateRight (avlnode key data left right)
      | -1 => avlRotateRight (avlnode key data (← avlRotateLeft left) right)
      | _ => .error .ecaseFailure
    | -2 => -- right heavy
      match ← avlBalanceFactor right with
      | 1 => avlRotateLeft (avlnode key data left (← avlRotateRight right))
      | -1 => avlRotateLeft (avlnode key data left right)
      | _ => .error .ecaseFailure
    | -1 | 0 | 1 => .ok (avlnode key data left right)
    | _ => .error .ecaseFailure

/-- As after insertion, but the node can be left-heavy whilst its left child is in balance. -/
def avlDeletionRebalance : Avltree V → Except Err (Avltree V)
  | nil => .error .typeError
  | avlnode key data left right => do
    match ← avlBalanceFactor (avlnode key data left right) with
    | 2 => -- left heavy
      match ← avlBalanceFactor left with
      | 1 | 0 => avlRotateRight (avlnode key data left right)
      | -1 => avlRotateRight (avlnode key data (← avlRotateLeft left) right)
      | _ => .error .ecaseFailure
    | -2 => -- right heavy
      match ← avlBalanceFactor right with
      | 1 => avlRotateLeft (avlnode key data left (← avlRotateRight right))
      | -1 | 0 => avlRotateLeft (avlnode key data left right)
      | _ => .error .ecaseFailure
    | -1 | 0 | 1 => .ok (avlnode key data left right)
    | _ => .error .ecaseFailure

def avlInsert (tree : Avltree V) (key : Word) (value : V) : Except Err (Avltree V) :=
  match tree with
  | nil => .ok (avlnode key value nil nil)
  | avlnode nodeKey data left right =>
    if key < nodeKey then do
      avlInsertionRebalance (avlnode nodeKey data (← avlInsert left key value) right)
    else if key > nodeKey then do
      avlInsertionRebalance (avlnode nodeKey data left (← avlInsert right key value))
    else .error (.duplicateKey key)

def avlDelete (key : Word) : Avltree V → Except Err (Avltree V)
  | nil => .ok nil
  | avlnode nodeKey data left right => do
    let tree ←
      if left.isNil && right.isNil then -- leaf
        if nodeKey = key then pure nil else pure (avlnode nodeKey data left right)
      else if right.isNil then -- left child only
        if nodeKey = key then pure left
        else if nodeKey < key then pure (avlnode nodeKey data left right)
        else pure (avlnode nodeKey data (← avlDelete key left) nil)
      else if left.isNil then -- right child only
        if nodeKey = key then pure right
        else if nodeKey > key then pure (avlnode nodeKey data left right)
        else pure (avlnode nodeKey data nil (← avlDelete key right))
      else if nodeKey = key then
        match ← avlFindmin right with
        | nil => .error .typeError
        | avlnode minKey minData _ _ =>
          pure (avlnode minKey minData left (← avlDelete minKey right))
      else if key < nodeKey then pure (avlnode nodeKey data (← avlDelete key left) right)
      else pure (avlnode nodeKey data left (← avlDelete key right))
    if tree.isNil then pure nil else avlDeletionRebalance tree

def avlFind (key : Word) : Avltree V → Avltree V
  | nil => nil
  | avlnode nodeKey data left right =>
    if key > nodeKey then avlFind key right
    else if key < nodeKey then avlFind key left
    else avlnode nodeKey data left right

/-- The loop of `avl-find<=`, with its second variable `result`. -/
def avlFindLEIn (key : Word) : Avltree V → Avltree V → Avltree V
  | nil, result => result
  | avlnode nodeKey data left right, result =>
    if key > nodeKey then avlFindLEIn key right (avlnode nodeKey data left right)
    else if key < nodeKey then avlFindLEIn key left result
    else avlnode nodeKey data left right

/-- Find a node with key less than or equal to `key` and as near it as possible. -/
def avlFindLE (key : Word) (root : Avltree V) : Avltree V := avlFindLEIn key root nil

def avlFindGEIn (key : Word) : Avltree V → Avltree V → Avltree V
  | nil, result => result
  | avlnode nodeKey data left right, result =>
    if key > nodeKey then avlFindGEIn key right result
    else if key < nodeKey then avlFindGEIn key left (avlnode nodeKey data left right)
    else avlnode nodeKey data left right

/-- Find a node with key greater than or equal to `key` and as near it as possible. -/
def avlFindGE (key : Word) (root : Avltree V) : Avltree V := avlFindGEIn key root nil

end Sbcl.Avltree
