import Mathlib.Data.List.Basic

/-!
# Packages (code/target-package.lisp)

* `Package`, `World` : the symbol tables of a package, the tables it uses and its shadowing symbols;
  the package graph;
* `World.findSymbol` : the internal symbols, the external symbols, and the used tables from the one
  used last;
* `World.export`, `World.import` and the other operations, which fail where the source signals an
  error;
* `Op`, `World.run` : sequences of operations that complete.

A symbol table is the list of its symbols, which are looked up by name. Package locks, which only
signal errors, are left out.
-/

namespace Sbcl.Packages

open Function

/-- Symbols of one name may differ. -/
structure Sym (N : Type) where
  id : ℕ
  name : N
deriving DecidableEq

inductive Status where
  | internal
  | external
  | inherited
deriving DecidableEq

variable {P N : Type}

/-- `tables` are the external symbols of the packages in it. -/
structure Package (P N : Type) where
  internal : List (Sym N)
  external : List (Sym N)
  tables : List P
  shadowing : List (Sym N)

structure World (P N : Type) where
  packages : P → Package P N
  mruTableIndex : P → ℕ
  /-- `package-%used-by`, which is recomputed on demand. -/
  usedBy : P → Option (List P)
  symbolPackage : Sym N → Option P
  /-- The id of the next new symbol. -/
  next : ℕ

/-- The packages that `do-packages` goes over. -/
structure Registry (P : Type) where
  packages : List P
  complete : ∀ p, p ∈ packages
  keyword : P

variable [DecidableEq P] [DecidableEq N]

/-- `%lookup-symbol` -/
def lookup (table : List (Sym N)) (name : N) : Option (Sym N) := table.find? fun s => s.name = name

/-- `nuke-symbol`, which finds the symbol by its name. -/
def nukeSymbol (table : List (Sym N)) (symbol : Sym N) : List (Sym N) :=
  table.eraseP fun s => s.name = symbol.name

def pushnew {α : Type} [DecidableEq α] (x : α) (xs : List α) : List α :=
  if x ∈ xs then xs else x :: xs

/-- The names of `do-symbol-name-groups` with their symbols. -/
def nameGroups (symbols : List (Sym N)) : List (N × List (Sym N)) :=
  (symbols.map Sym.name).eraseDups.map fun name =>
    (name, (symbols.filter fun s => s.name = name).eraseDups)

/-- The circular order of the `n` used tables, down from the most recently used one. -/
def searchOrder (n mru : ℕ) : List ℕ :=
  let start := if mru < n then mru else 0
  (List.range (start + 1)).reverse ++ (List.range' (start + 1) (n - (start + 1))).reverse

namespace World

variable (w : World P N) (p : P)

def findExternalSymbol (name : N) : Option (Sym N) := lookup (w.packages p).external name

/-- The inherited symbol, with the index of its table. -/
def findInherited (name : N) : Option (Sym N × ℕ) :=
  let tables := (w.packages p).tables
  (searchOrder tables.length (w.mruTableIndex p)).findSome? fun i =>
    (tables[i]?).bind fun q => (w.findExternalSymbol q name).map fun s => (s, i)

def setPackage (k : Package P N) : World P N := { w with packages := update w.packages p k }

def findSymbol (name : N) : Option (Sym N × Status) × World P N :=
  match lookup (w.packages p).internal name with
  | some s => (some (s, .internal), w)
  | none =>
    match lookup (w.packages p).external name with
    | some s => (some (s, .external), w)
    | none =>
      match w.findInherited p name with
      | some (s, i) => (some (s, .inherited),
        { w with mruTableIndex := update w.mruTableIndex p i })
      | none => (none, w)

/-- A new symbol, whose home package is `p`. -/
def makeSymbol (name : N) : Sym N × World P N :=
  (⟨w.next, name⟩,
    { w with symbolPackage := update w.symbolPackage ⟨w.next, name⟩ (some p), next := w.next + 1 })

def addInternal (symbol : Sym N) : World P N :=
  w.setPackage p { w.packages p with internal := symbol :: (w.packages p).internal }

def addExternal (symbol : Sym N) : World P N :=
  w.setPackage p { w.packages p with external := symbol :: (w.packages p).external }

def nukeInternal (symbol : Sym N) : World P N :=
  w.setPackage p { w.packages p with internal := nukeSymbol (w.packages p).internal symbol }

def nukeExternal (symbol : Sym N) : World P N :=
  w.setPackage p { w.packages p with external := nukeSymbol (w.packages p).external symbol }

def setShadowing (symbols : List (Sym N)) : World P N :=
  w.setPackage p { w.packages p with shadowing := symbols }

/-- The packages that use `p`, which are remembered. -/
def usedByList (reg : Registry P) : List P × World P N :=
  match w.usedBy p with
  | some list => (list, w)
  | none =>
    let list := (reg.packages.filter fun user => p ∈ (w.packages user).tables).reverse
    (list, { w with usedBy := update w.usedBy p (some list) })

/-! ## Operations -/

/-- The symbol, and how it was accessible before. -/
def intern (reg : Registry P) (name : N) : Sym N × Option Status × World P N :=
  match w.findSymbol p name with
  | (some (s, status), w) => (s, some status, w)
  | (none, w) =>
    let (symbol, w) := w.makeSymbol p name
    (symbol, none, if p = reg.keyword then w.addExternal p symbol else w.addInternal p symbol)

/-- `unintern`, with whether the symbol was present. -/
def unintern (symbol : Sym N) : Option (Bool × World P N) :=
  let shadowing := (w.packages p).shadowing
  let cset := ((w.packages p).tables.filterMap fun q =>
    w.findExternalSymbol q symbol.name).eraseDups
  if symbol ∈ shadowing ∧ 1 < cset.length then none
  else
    let w := if symbol ∈ shadowing then w.setShadowing p (shadowing.filter (· ≠ symbol)) else w
    let forget (w : World P N) : World P N :=
      if w.symbolPackage symbol = some p then
        { w with symbolPackage := update w.symbolPackage symbol none } else w
    match w.findSymbol p symbol.name with
    | (some (s, .internal), w) =>
      some (if symbol = s then (true, forget (w.nukeInternal p symbol)) else (false, w))
    | (some (s, .external), w) =>
      some (if symbol = s then (true, forget (w.nukeExternal p symbol)) else (false, w))
    | (_, w) => some (false, w)

/-- The symbols of the groups that are to be added. -/
def importGroups : World P N → List (Sym N) → List (N × List (Sym N)) →
    Option (List (Sym N) × World P N)
  | w, syms, [] => some (syms, w)
  | w, syms, (name, group) :: groups =>
    match w.findSymbol p name, group with
    | (none, w), [s] => importGroups w (s :: syms) groups
    | (some (s, status), w), [s'] =>
      if s' = s then importGroups w (if status = .inherited then s :: syms else syms) groups else none
    | _, _ => none

/-- Homeless symbols become owned by the package. -/
def adopt (symbols : List (Sym N)) : World P N :=
  { w with symbolPackage := fun s => if s ∈ symbols ∧ w.symbolPackage s = none then some p else w.symbolPackage s }

def «import» (symbols : List (Sym N)) : Option (World P N) := do
  let (syms, w) ← importGroups p w [] (nameGroups symbols)
  return (syms.foldl (fun w sym => w.addInternal p sym) w).adopt p symbols

/-- The body of the loop of `shadowing-import`. -/
def shadowingImport1 (symbol : Sym N) : Option (World P N) := do
  let remove (s : Sym N) (w : World P N) : Option (World P N) := do
    let (_, w) ← (w.setShadowing p ((w.packages p).shadowing.filter (· ≠ s))).unintern p s
    return w
  let w ←
    match w.findSymbol p symbol.name with
    | (some (_, .inherited), w) => some (w.addInternal p symbol)
    | (some (s, _), w) => if s = symbol then some w else (remove s w).map fun w => w.addInternal p symbol
    | (none, w) => some (w.addInternal p symbol)
  return w.setShadowing p (pushnew symbol (w.packages p).shadowing)

def shadowingImport : World P N → List (Sym N) → Option (World P N)
  | w, [] => some w
  | w, symbol :: symbols => (w.shadowingImport1 p symbol).bind fun w => shadowingImport w symbols

/-- The body of the loop of `shadow`. -/
def shadow1 (name : N) : World P N :=
  let (s, w) :=
    match w.findSymbol p name with
    | (some (s, .internal), w) | (some (s, .external), w) => (s, w)
    | (_, w) =>
      let (s, w) := w.makeSymbol p name
      (s, w.addInternal p s)
  w.setShadowing p (pushnew s (w.packages p).shadowing)

def shadow (names : List N) : World P N := names.foldl (fun w name => w.shadow1 p name) w

/-- The conflict check of `export` for one symbol and the packages that use `p`. -/
def exportConflicts : World P N → Sym N → List P → Option (World P N)
  | w, _, [] => some w
  | w, symbol, user :: users =>
    match w.findSymbol user symbol.name with
    | (some (s, _), w) =>
      if s = symbol ∨ s ∈ (w.packages user).shadowing then exportConflicts w symbol users else none
    | (none, w) => exportConflicts w symbol users

def exportAllConflicts (users : List P) : World P N → List (Sym N) → Option (World P N)
  | w, [] => some w
  | w, symbol :: symbols => (w.exportConflicts symbol users).bind fun w =>
    exportAllConflicts users w symbols

/-- The symbols that have to be imported first; a symbol that is not accessible is an error. -/
def exportImports : World P N → List (Sym N) → List (Sym N) → Option (List (Sym N) × World P N)
  | w, imports, [] => some (imports, w)
  | w, imports, symbol :: symbols =>
    match w.findSymbol p symbol.name with
    | (some (s, status), w) =>
      if s = symbol then exportImports w (if status = .inherited then symbol ::
        imports else imports) symbols else none
    | (none, _) => none

/-- Internal symbols become external. -/
def exportSymbols : World P N → List (Sym N) → World P N
  | w, [] => w
  | w, symbol :: symbols =>
    match w.findSymbol p symbol.name with
    | (some (s, _), w) =>
      exportSymbols
        (if s = symbol then (w.addExternal p symbol).nukeInternal p symbol else w) symbols
    | (none, w) => exportSymbols w symbols

def «export» (reg : Registry P) (symbols : List (Sym N)) : Option (World P N) := do
  let syms := (symbols.filter fun s => w.findExternalSymbol p s.name ≠ some s).foldl (fun syms s =>
    pushnew s syms) []
  let (users, w) := w.usedByList p reg
  let w ← w.exportAllConflicts users syms
  let (imports, w) ← exportImports p w [] syms
  let w ← w.import p imports
  return w.exportSymbols p syms

/-- The external ones of the symbols; a symbol that is not accessible is an error. -/
def unexportCheck : World P N → List (Sym N) → List (Sym N) → Option (List (Sym N) × World P N)
  | w, syms, [] => some (syms, w)
  | w, syms, symbol :: symbols =>
    match w.findSymbol p symbol.name with
    | (some (s, status), w) =>
      if s = symbol then unexportCheck w (if status = .external then pushnew symbol syms else syms)
        symbols else none
    | (none, _) => none

def unexport (symbols : List (Sym N)) : Option (World P N) := do
  let (syms, w) ← unexportCheck p w [] symbols
  return syms.foldl (fun w sym => (w.addInternal p sym).nukeExternal p sym) w

/-- The conflict check of `use-package`. -/
def useConflicts (shadowing : List (Sym N)) : World P N → List (N × List (Sym N)) →
    Option (World P N)
  | w, [] => some w
  | w, (name, group) :: groups =>
    match w.findSymbol p name with
    | (none, w) => if 1 < group.length then none else useConflicts shadowing w groups
    | (some (s, _), w) =>
      if group = [s] ∨ s ∈ shadowing then useConflicts shadowing w groups else none

def usePackage (reg : Registry P) (packagesToUse : List P) : Option (World P N) :=
  if p = reg.keyword then none
  else
    let dedupedPackages := packagesToUse.eraseDups
    -- The test for KEYWORD is about the list of the packages not in use yet, before it is filled.
    let packages : List P := []
    if reg.keyword ∈ packages then none
    else do
      let packages := dedupedPackages.filter fun q => q ∉ (w.packages p).tables
      let w ← w.useConflicts p (w.packages p).shadowing
        (nameGroups (packages.flatMap fun q => (w.packages q).external))
      let w := w.setPackage p { w.packages p with tables := (w.packages p).tables ++ packages }
      return { w with usedBy := fun q => if q ∈ packages then none else w.usedBy q }

def unusePackage (packagesToUnuse : List P) : World P N :=
  let w := w.setPackage p
    { w.packages p with tables := (w.packages p).tables.filter (· ∉ packagesToUnuse) }
  { w with usedBy := fun q => if q ∈ packagesToUnuse then none else w.usedBy q }

end World

inductive Op (P N : Type) where
  | intern (name : N) (package : P)
  | import (symbols : List (Sym N)) (package : P)
  | shadow (names : List N) (package : P)
  | shadowingImport (symbols : List (Sym N)) (package : P)
  | export (symbols : List (Sym N)) (package : P)
  | unexport (symbols : List (Sym N)) (package : P)
  | unintern (symbol : Sym N) (package : P)
  | usePackage (packagesToUse : List P) (package : P)
  | unusePackage (packagesToUnuse : List P) (package : P)

/-- The state after the operation, if it completes without an error. -/
def World.step (reg : Registry P) (w : World P N) : Op P N → Option (World P N)
  | .intern name p => some (w.intern p reg name).2.2
  | .import symbols p => w.import p symbols
  | .shadow names p => some (w.shadow p names)
  | .shadowingImport symbols p => shadowingImport p w symbols
  | .export symbols p => w.export p reg symbols
  | .unexport symbols p => w.unexport p symbols
  | .unintern symbol p => (w.unintern p symbol).map Prod.snd
  | .usePackage packagesToUse p => w.usePackage p reg packagesToUse
  | .unusePackage packagesToUnuse p => some (w.unusePackage p packagesToUnuse)

/-- A run of operations that all complete, with the states that it goes through. -/
inductive Run (reg : Registry P) : World P N → List (Op P N) → List (World P N) → Prop
  | nil (w : World P N) : Run reg w [] []
  | cons {w w' : World P N} {op : Op P N} {ops : List (Op P N)} {ws : List (World P N)} :
      w.step reg op = some w' → Run reg w' ops ws → Run reg w (op :: ops) (w' :: ws)

end Sbcl.Packages
