import Mathlib.Order.Bounds.Basic
import Sbcl.Tree.BrothertreeCorrect

/-!
# Searches in brother trees (code/brothertree.lisp, runtime/search.c)

* `Object` : the nodes in memory; a fringe node is a binary one that is too short for its children;
* `findEq`, `findLe`, `findGe` : the functions of the lisp;
* `brothertreeFindEql`, `brothertreeFindLesseql`, `brothertreeFindGreatereql` : those of the
  runtime;
* `Tree.search`, `Stored` : the walk down a tree, and how the tree is stored;
* `finds_agree` : what all of them return.

Nothing is forwarded, as it would be during a collection. Reading a node that is not there, and a
loop without fuel, are `none`.
-/

namespace Sbcl.BrothertreeFind

open Brothertree (Ordered keys)

/-- NIL, or the address of a node. -/
abbrev Ref := Option ℕ

/-- Behind the key of a fringe node are other words. -/
inductive Object where
  | unary (child : Ref)
  | binary (payloadWords : ℕ) (key : Word) (left right : Ref)

/-- The turns of a loop over a node and the best one so far, up to one that returns. -/
def loop (memory : ℕ → Option Object) (turn : ℕ → Object → Ref → Ref ⊕ Ref × Ref) :
    ℕ → Ref → Ref → Option Ref
  | 0, _, _ => none
  | _ + 1, none, best => some best
  | fuel + 1, some node, best => do
    match turn node (← memory node) best with
    | .inl result => some result
    | .inr (next, best) => loop memory turn fuel next best

section Searches

variable (dataStart : ℕ) (x8664 : Bool) (memory : ℕ → Option Object) (key : Word)
    (fuel : ℕ) (tree : Ref)

/-- `fringe-binary-node-p`, as a VOP or as a function. -/
def fringeBinaryNodeP (payloadWords : ℕ) : Bool :=
  if x8664 then decide (payloadWords < 3 + dataStart) else decide (payloadWords = 1 + dataStart)

def binaryNodeParts (payloadWords : ℕ) (key : Word) (left right : Ref) : Ref × Word × Ref :=
  if fringeBinaryNodeP dataStart x8664 payloadWords then (none, key, none) else (left, key, right)

/-- A turn of the lisp, with what is the best node on the way to the left and on the way to the
right. -/
def lispTurn (onLeft onRight : ℕ → Ref → Ref) (node : ℕ) (object : Object) (best : Ref) :
    Ref ⊕ Ref × Ref :=
  match object with
  | .unary child => .inr (child, best)
  | .binary words k l r =>
    let (left, nodeKey, right) := binaryNodeParts dataStart x8664 words k l r
    if key < nodeKey then .inr (left, onLeft node best)
    else if nodeKey < key then .inr (right, onRight node best)
    else .inl (some node)

/-- `find=` -/
def findEq : Option Ref :=
  loop memory (lispTurn dataStart x8664 key (fun _ best => best) fun _ best => best) fuel tree none

/-- `find<=` -/
def findLe : Option Ref :=
  loop memory (lispTurn dataStart x8664 key (fun _ best => best) fun node _ =>
    some node) fuel tree none

/-- `find>=` -/
def findGe : Option Ref :=
  loop memory (lispTurn dataStart x8664 key (fun node _ => some node) fun _ best =>
    best) fuel tree none

def fringeNodeP (payloadWords : ℕ) : Bool :=
  let internalNodePayloadWords := 3 + dataStart
  decide (payloadWords < internalNodePayloadWords)

/-- A turn of the runtime, with the comparison that it goes to the left by. -/
def runtimeTurn (goesLeft : Word → Bool) (onLeft onRight : ℕ → Ref → Ref) (tree : ℕ)
    (object : Object) (best : Ref) : Ref ⊕ Ref × Ref :=
  match object with
  | .unary child => .inr (child, best)
  | .binary words uwKey left right =>
    if uwKey = key then .inl (some tree)
    else
      let (l, r) := if !fringeNodeP dataStart words then (left, right) else (none, none)
      if goesLeft uwKey then .inr (l, onLeft tree best) else .inr (r, onRight tree best)

def brothertreeFindEql : Option Ref :=
  loop memory (runtimeTurn dataStart key (fun uwKey => key < uwKey) (fun _ best => best)
    fun _ best => best) fuel tree none

def brothertreeFindLesseql : Option Ref :=
  loop memory (runtimeTurn dataStart key (fun uwKey => key < uwKey) (fun _ best => best)
    fun tree _ => some tree) fuel tree none

def brothertreeFindGreatereql : Option Ref :=
  loop memory (runtimeTurn dataStart key (fun uwKey => !decide (uwKey < key)) (fun tree _ =>
    some tree) fun _ best => best) fuel tree none

end Searches

/-! ## Trees -/

/-- A tree with the addresses of its nodes. -/
inductive Tree where
  | nil
  | unary (node : ℕ) (child : Tree)
  | binary (node : ℕ) (left : Tree) (key : Word) (right : Tree)

namespace Tree

def ref : Tree → Ref
  | nil => none
  | unary node _ | binary node _ _ _ => some node

def shape : Tree → Brothertree
  | nil => .nil
  | unary _ child => .N1 child.shape
  | binary _ left key right => .N2 left.shape key right.shape

/-- The binary nodes and their keys, in order. -/
def nodes : Tree → List (ℕ × Word)
  | nil => []
  | unary _ child => child.nodes
  | binary node left key right => left.nodes ++ (node, key) :: right.nodes

def depth : Tree → ℕ
  | nil => 0
  | unary _ child => child.depth + 1
  | binary _ left _ right => max left.depth right.depth + 1

theorem keys_shape (t : Tree) : keys t.shape = t.nodes.map Prod.snd := by
  induction t with
  | nil => rfl
  | unary node child ih => exact ih
  | binary node left key right ihl ihr => simp [shape, nodes, keys, ihl, ihr]

/-- The walk down the tree. -/
def search (key : Word) (onLeft onRight : ℕ → Ref → Ref) : Tree → Ref → Ref
  | nil, best => best
  | unary _ child, best => child.search key onLeft onRight best
  | binary node left k right, best =>
    if key < k then left.search key onLeft onRight (onLeft node best)
    else if k < key then right.search key onLeft onRight (onRight node best)
    else some node

end Tree

/-- The nodes of a tree in memory. -/
def Stored (dataStart : ℕ) (memory : ℕ → Option Object) : Tree → Prop
  | .nil => True
  | .unary node child => memory node = some (.unary child.ref) ∧ Stored dataStart memory child
  | .binary node left key right =>
    (∃ words l r, memory node = some (.binary words key l r) ∧
      if left.ref = none ∧ right.ref = none then words = 1 + dataStart else words = 3 + dataStart ∧
      l = left.ref ∧ r = right.ref) ∧
    Stored dataStart memory left ∧ Stored dataStart memory right

variable {dataStart : ℕ} {x8664 : Bool} {memory : ℕ → Option Object} {key : Word}

theorem loop_eq_search {onLeft onRight : ℕ → Ref → Ref} {turn : ℕ → Object → Ref → Ref ⊕ Ref × Ref}
    (hunary : ∀ node child best, turn node (.unary child) best = .inr (child, best))
    (hbinary : ∀ node words k l r left right best,
      (if left = none ∧ right = none then words = 1 + dataStart else words = 3 + dataStart ∧
        l = left ∧ r = right) →
      turn node (.binary words k l r) best =
        if key < k then .inr (left, onLeft node best) else if k < key then .inr (right,
          onRight node best) else .inl (some node))
    {t : Tree} (h : Stored dataStart memory t) {fuel : ℕ} (hfuel : t.depth < fuel) (best : Ref) :
    loop memory turn fuel t.ref best = some (t.search key onLeft onRight best) := by
  obtain ⟨fuel, rfl⟩ := Nat.exists_eq_succ_of_ne_zero (Nat.ne_of_gt (Nat.zero_lt_of_lt hfuel))
  induction t generalizing fuel best with
  | nil => rfl
  | unary node child ih =>
    obtain ⟨hnode, hchild⟩ := h
    have hdepth : child.depth < fuel := Nat.lt_of_succ_lt_succ hfuel
    obtain ⟨fuel, rfl⟩ := Nat.exists_eq_succ_of_ne_zero (Nat.ne_of_gt (Nat.zero_lt_of_lt hdepth))
    simp only [Tree.ref, loop, hnode, Option.bind_eq_bind, Option.bind_some, hunary]
    exact ih hchild best fuel hdepth
  | binary node left k right ihl ihr =>
    obtain ⟨⟨words, l, r, hnode, hwords⟩, hl, hr⟩ := h
    have hdepth : left.depth < fuel ∧ right.depth < fuel :=
      Nat.max_lt.1 (Nat.lt_of_succ_lt_succ hfuel)
    obtain ⟨fuel, rfl⟩ := Nat.exists_eq_succ_of_ne_zero (Nat.ne_of_gt (Nat.zero_lt_of_lt hdepth.1))
    simp only [Tree.ref, loop, hnode, Option.bind_eq_bind, Option.bind_some,
      hbinary _ _ _ _ _ _ _ _ hwords, Tree.search]
    split_ifs
    · exact ihl hl _ fuel hdepth.1
    · exact ihr hr _ fuel hdepth.2
    · rfl

theorem lisp_eq_search {onLeft onRight : ℕ → Ref → Ref} {t : Tree}
    (h : Stored dataStart memory t) {fuel : ℕ}
    (hfuel : t.depth < fuel) (best : Ref) :
    loop memory (lispTurn dataStart x8664 key onLeft onRight) fuel t.ref best =
      some (t.search key onLeft onRight best) := by
  refine loop_eq_search (fun _ _ _ => rfl) (fun node words k l r left right best hwords =>
    ?_) h hfuel best
  have hparts : binaryNodeParts dataStart x8664 words k l r = (left, k, right) := by
    unfold binaryNodeParts fringeBinaryNodeP
    split_ifs at hwords with hnil
    · rw [hnil.1, hnil.2, hwords]
      cases x8664 <;> simp
    · obtain ⟨rfl, rfl, rfl⟩ := hwords
      cases x8664 <;> simp
  simp only [lispTurn, hparts]

theorem runtime_eq_search {onLeft onRight : ℕ → Ref → Ref} {goesLeft : Word → Bool}
    (hleft : ∀ k, k ≠ key → (goesLeft k = true ↔ key < k)) {t : Tree}
    (h : Stored dataStart memory t) {fuel : ℕ}
    (hfuel : t.depth < fuel) (best : Ref) :
    loop memory (runtimeTurn dataStart key goesLeft onLeft onRight) fuel t.ref best =
      some (t.search key onLeft onRight best) := by
  refine loop_eq_search (fun _ _ _ => rfl) (fun node words k l r left right best hwords =>
    ?_) h hfuel best
  have hparts : (if !fringeNodeP dataStart words then (l, r) else (none, none)) =
      (left, right) := by
    unfold fringeNodeP
    split_ifs at hwords with hnil
    · rw [hnil.1, hnil.2, hwords]
      simp
    · obtain ⟨rfl, rfl, rfl⟩ := hwords
      simp
  simp only [runtimeTurn, hparts]
  rcases lt_trichotomy key k with hlt | rfl | hgt
  · rw [if_neg hlt.ne', if_pos hlt, if_pos ((hleft k hlt.ne').2 hlt)]
  · rw [if_pos rfl, if_neg (lt_irrefl _), if_neg (lt_irrefl _)]
  · rw [if_neg hgt.ne, if_neg hgt.not_gt, if_pos hgt,
      if_neg fun hleft' => hgt.not_gt ((hleft k hgt.ne).1 hleft')]

/-! ## The nodes that are found -/

theorem ordered_binary {node : ℕ} {left right : Tree} {k : Word}
    (h : Ordered (Tree.binary node left k right).shape) :
    Ordered left.shape ∧ Ordered right.shape ∧ (∀ p ∈ left.nodes, p.2 ≤ k) ∧
      ∀ p ∈ right.nodes, k ≤ p.2 := by
  obtain ⟨hl, hr, hlk, hkr, -⟩ := (SortedSeq.pairwise_node (· ≤ ·)).1 h
  rw [Tree.keys_shape] at hlk hkr
  exact ⟨hl, hr, fun p hp => hlk p.2 (List.mem_map_of_mem hp),
    fun p hp => hkr p.2 (List.mem_map_of_mem hp)⟩

theorem search_eq {t : Tree} (h : Ordered t.shape) {found : Ref}
    (hfound : t.search key (fun _ best => best) (fun _ best => best) none = found) :
    (∀ node ∈ found, (node, key) ∈ t.nodes) ∧ (found = none → ∀ p ∈ t.nodes, p.2 ≠ key) := by
  induction t with
  | nil =>
    subst hfound
    exact ⟨nofun, nofun⟩
  | unary node child ih => exact ih h hfound
  | binary node left k right ihl ihr =>
    obtain ⟨hl, hr, hlk, hkr⟩ := ordered_binary h
    simp only [Tree.nodes, List.mem_append, List.mem_cons]
    rw [Tree.search] at hfound
    split_ifs at hfound with hlt hgt
    · obtain ⟨hin, hout⟩ := ihl hl hfound
      refine ⟨fun n hn => .inl (hin n hn), fun hnone p hp => ?_⟩
      rcases hp with hp | rfl | hp
      · exact hout hnone p hp
      · exact hlt.ne'
      · exact (hlt.trans_le (hkr p hp)).ne'
    · obtain ⟨hin, hout⟩ := ihr hr hfound
      refine ⟨fun n hn => .inr (.inr (hin n hn)), fun hnone p hp => ?_⟩
      rcases hp with hp | rfl | hp
      · exact ((hlk p hp).trans_lt hgt).ne
      · exact hgt.ne
      · exact hout hnone p hp
    · obtain rfl : key = k := le_antisymm (not_lt.1 hgt) (not_lt.1 hlt)
      subst hfound
      exact ⟨fun n hn => .inr (.inl (by cases hn; rfl)), nofun⟩

/-- The best node so far is only returned where the tree has none. -/
theorem search_le {t : Tree} (h : Ordered t.shape) {best found : Ref}
    (hfound : t.search key (fun _ best => best) (fun node _ => some node) best = found) :
    (found = best ∧ ∀ p ∈ t.nodes, key < p.2) ∨
      ∃ p ∈ t.nodes, found = some p.1 ∧ p.2 ≤ key ∧ ∀ q ∈ t.nodes, q.2 ≤ key → q.2 ≤ p.2 := by
  induction t generalizing best with
  | nil => exact .inl ⟨hfound.symm, nofun⟩
  | unary node child ih => exact ih h hfound
  | binary node left k right ihl ihr =>
    obtain ⟨hl, hr, hlk, hkr⟩ := ordered_binary h
    simp only [Tree.nodes, List.mem_append, List.mem_cons]
    rw [Tree.search] at hfound
    split_ifs at hfound with hlt hgt
    · have habove (q : ℕ × Word) (hq : q = (node, k) ∨ q ∈ right.nodes) : key < q.2 := by
        rcases hq with rfl | hq
        · exact hlt
        · exact hlt.trans_le (hkr q hq)
      rcases ihl hl hfound with ⟨hbest, hall⟩ | ⟨p, hp, hpfound, hple, hmax⟩
      · exact .inl ⟨hbest, fun q hq => hq.elim (hall q) (habove q)⟩
      · exact .inr ⟨p, .inl hp, hpfound, hple, fun q hq hle => hq.elim (hmax q · hle) fun hq =>
          absurd hle (habove q hq).not_ge⟩
    · have hbelow (p : Word) (hp : k ≤ p) (q : ℕ × Word) (hq : q ∈ left.nodes ∨ q = (node, k)) :
          q.2 ≤ p := by
        rcases hq with hq | rfl
        · exact (hlk q hq).trans hp
        · exact hp
      rcases ihr hr hfound with ⟨hbest, hall⟩ | ⟨p, hp, hpfound, hple, hmax⟩
      · refine .inr ⟨(node, k), .inr (.inl rfl), hbest, hgt.le, fun q hq hle => ?_⟩
        exact (or_assoc.2 hq).elim (hbelow k le_rfl q) fun hq => absurd hle (hall q hq).not_ge
      · exact .inr ⟨p, .inr (.inr hp), hpfound, hple,
          fun q hq hle => (or_assoc.2 hq).elim (hbelow p.2 (hkr p hp) q) (hmax q · hle)⟩
    · obtain rfl : key = k := le_antisymm (not_lt.1 hgt) (not_lt.1 hlt)
      exact .inr ⟨(node, key), .inr (.inl rfl), hfound.symm, le_rfl, fun q _ hle => hle⟩

theorem search_ge {t : Tree} (h : Ordered t.shape) {best found : Ref}
    (hfound : t.search key (fun node _ => some node) (fun _ best => best) best = found) :
    (found = best ∧ ∀ p ∈ t.nodes, p.2 < key) ∨
      ∃ p ∈ t.nodes, found = some p.1 ∧ key ≤ p.2 ∧ ∀ q ∈ t.nodes, key ≤ q.2 → p.2 ≤ q.2 := by
  induction t generalizing best with
  | nil => exact .inl ⟨hfound.symm, nofun⟩
  | unary node child ih => exact ih h hfound
  | binary node left k right ihl ihr =>
    obtain ⟨hl, hr, hlk, hkr⟩ := ordered_binary h
    simp only [Tree.nodes, List.mem_append, List.mem_cons]
    rw [Tree.search] at hfound
    split_ifs at hfound with hlt hgt
    · have habove (p : Word) (hp : p ≤ k) (q : ℕ × Word) (hq : q = (node, k) ∨ q ∈ right.nodes) :
          p ≤ q.2 := by
        rcases hq with rfl | hq
        · exact hp
        · exact hp.trans (hkr q hq)
      rcases ihl hl hfound with ⟨hbest, hall⟩ | ⟨p, hp, hpfound, hple, hmin⟩
      · refine .inr ⟨(node, k), .inr (.inl rfl), hbest, hlt.le, fun q hq hle => ?_⟩
        exact hq.elim (fun hq => absurd hle (hall q hq).not_ge) (habove k le_rfl q)
      · exact .inr ⟨p, .inl hp, hpfound, hple,
          fun q hq hle => hq.elim (hmin q · hle) (habove p.2 (hlk p hp) q)⟩
    · have hbelow (q : ℕ × Word) (hq : q ∈ left.nodes ∨ q = (node, k)) : q.2 < key := by
        rcases hq with hq | rfl
        · exact (hlk q hq).trans_lt hgt
        · exact hgt
      rcases ihr hr hfound with ⟨hbest, hall⟩ | ⟨p, hp, hpfound, hple, hmin⟩
      · exact .inl ⟨hbest, fun q hq => (or_assoc.2 hq).elim (hbelow q) (hall q)⟩
      · refine .inr ⟨p, .inr (.inr hp), hpfound, hple, fun q hq hle => ?_⟩
        exact (or_assoc.2 hq).elim (fun hq => absurd hle (hbelow q hq).not_ge) (hmin q · hle)
    · obtain rfl : key = k := le_antisymm (not_lt.1 hgt) (not_lt.1 hlt)
      exact .inr ⟨(node, key), .inr (.inl rfl), hfound.symm, le_rfl, fun q _ hle => hle⟩

/-- For every tree in order and every key; how the nodes are balanced does not matter. -/
theorem finds_agree (dataStart : ℕ) (x8664 : Bool) {memory : ℕ → Option Object} {t : Tree}
    (hstored : Stored dataStart memory t)
    (hordered : Ordered t.shape) (key : Word) {fuel : ℕ} (hfuel : t.depth < fuel) :
    ∃ eq le ge : Ref,
      (findEq dataStart x8664 memory key fuel t.ref = some eq ∧
        brothertreeFindEql dataStart memory key fuel t.ref = some eq) ∧
      (findLe dataStart x8664 memory key fuel t.ref = some le ∧
        brothertreeFindLesseql dataStart memory key fuel t.ref = some le) ∧
      (findGe dataStart x8664 memory key fuel t.ref = some ge ∧
        brothertreeFindGreatereql dataStart memory key fuel t.ref = some ge) ∧
      (∀ node ∈ eq, (node, key) ∈ t.nodes) ∧ (eq = none → key ∉ keys t.shape) ∧
      (∀ node ∈ le, ∃ k, (node, k) ∈ t.nodes ∧ IsGreatest {k | k ∈ keys t.shape ∧ k ≤ key} k) ∧
      (le = none → ∀ k ∈ keys t.shape, ¬k ≤ key) ∧
      (∀ node ∈ ge, ∃ k, (node, k) ∈ t.nodes ∧ IsLeast {k | k ∈ keys t.shape ∧ key ≤ k} k) ∧
      (ge = none → ∀ k ∈ keys t.shape, ¬key ≤ k) := by
  have hlt (k : Word) (_ : k ≠ key) : decide (key < k) = true ↔ key < k := decide_eq_true_iff
  have hge (k : Word) (hne : k ≠ key) : (!decide (k < key)) = true ↔ key < k := by
    rw [Bool.not_eq_true', decide_eq_false_iff_not, not_lt]
    exact ⟨fun hle => lt_of_le_of_ne hle hne.symm, le_of_lt⟩
  refine ⟨_, _, _, ⟨lisp_eq_search hstored hfuel none, runtime_eq_search hlt hstored hfuel none⟩,
    ⟨lisp_eq_search hstored hfuel none, runtime_eq_search hlt hstored hfuel none⟩,
    ⟨lisp_eq_search hstored hfuel none, runtime_eq_search hge hstored hfuel none⟩, ?_⟩
  simp only [Tree.keys_shape, List.mem_map]
  obtain ⟨hin, hout⟩ := @search_eq key t hordered _ rfl
  refine ⟨hin, fun hnone ⟨p, hp, heq⟩ => hout hnone p hp heq, ?_⟩
  rw [← and_assoc]
  constructor
  · rcases @search_le key t hordered none _ rfl with ⟨hnone, hall⟩ | ⟨p, hp, hfound, hle, hmax⟩
    · rw [hnone]
      exact ⟨nofun, fun _ k ⟨p, hp, hk⟩ => hk ▸ (hall p hp).not_ge⟩
    · rw [hfound]
      refine ⟨fun node hnode => ?_, nofun⟩
      cases hnode
      exact ⟨p.2, hp, ⟨⟨p, hp, rfl⟩, hle⟩, fun k ⟨⟨q, hq, hk⟩, hkle⟩ => hk ▸ hmax q hq (hk ▸ hkle)⟩
  · rcases @search_ge key t hordered none _ rfl with ⟨hnone, hall⟩ | ⟨p, hp, hfound, hle, hmin⟩
    · rw [hnone]
      exact ⟨nofun, fun _ k ⟨p, hp, hk⟩ => hk ▸ (hall p hp).not_ge⟩
    · rw [hfound]
      refine ⟨fun node hnode => ?_, nofun⟩
      cases hnode
      exact ⟨p.2, hp, ⟨⟨p, hp, rfl⟩, hle⟩, fun k ⟨⟨q, hq, hk⟩, hkle⟩ => hk ▸ hmin q hq (hk ▸ hkle)⟩

/-- A root with a fringe node and a unary one. -/
def fringeTree : Tree := .binary 16 (.binary 32 .nil 3 .nil) 5 (.unary 48 .nil)

def fringeMemory (node : ℕ) : Option Object :=
  if node = 16 then some (.binary 3 5 (some 32) (some 48))
  else if node = 32 then some (.binary 1 3 (some 7) none)
  else if node = 48 then some (.unary none)
  else none

theorem finds_agree_fringe : ∃ eq le ge : Ref,
    (findEq 0 true fringeMemory 4 3 (some 16) = some eq ∧
      brothertreeFindEql 0 fringeMemory 4 3 (some 16) = some eq) ∧
    (findLe 0 true fringeMemory 4 3 (some 16) = some le ∧
      brothertreeFindLesseql 0 fringeMemory 4 3 (some 16) = some le) ∧
    findGe 0 true fringeMemory 4 3 (some 16) = some ge ∧
    brothertreeFindGreatereql 0 fringeMemory 4 3 (some 16) = some ge := by
  have hstored : Stored 0 fringeMemory fringeTree :=
    ⟨⟨3, _, _, rfl, rfl, rfl, rfl⟩, ⟨⟨1, _, _, rfl, rfl⟩, trivial, trivial⟩, rfl, trivial⟩
  have hordered : Ordered fringeTree.shape := by
    rw [Ordered, Tree.keys_shape]
    decide
  obtain ⟨eq, le, ge, heq, hle, hge, -⟩ :=
    finds_agree 0 true hstored hordered 4 (show fringeTree.depth < 3 by decide)
  exact ⟨eq, le, ge, heq, hle, hge⟩

end Sbcl.BrothertreeFind
