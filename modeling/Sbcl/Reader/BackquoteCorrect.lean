import Sbcl.Reader.BackquoteRules

/-!
# The expansion builds what the template says (code/backq.lisp)

* `Subform.value`, `denote` : what a subform, and a list of subforms with or without a dot, stands
  for;
* `denote_foldConstants`, `denote_unspliceLast` : folding the suffix and the final splice keep it;
* `evalForm_recurse` : the nested list constructors build it;
* `eval_expandQuasiquote` : by induction on the template, at every depth.
-/

namespace Sbcl.Backq

open List Option Bool

variable {A : Type} {env : Sexpr A → Option (Sexpr A)}
variable {front xs : List (Sexpr A)} {rest : List (Subform A)} {form x : Sexpr A}
  {first : Subform A}

namespace Sexpr

@[simp] theorem dotted_nil (last : Sexpr A) : dotted [] last = last := rfl

@[simp] theorem dotted_cons (x : Sexpr A) (xs : List (Sexpr A)) (last : Sexpr A) :
    dotted (x :: xs) last = .cons x (dotted xs last) := rfl

theorem elements_dotted (last : Sexpr A) : ∀ xs : List (Sexpr A),
    (dotted xs last).elements = last.elements.map (xs ++ ·)
  | [] => by simp
  | x :: xs => by
    rw [dotted_cons, elements, elements_dotted last xs, Option.map_map]
    rfl

@[simp] theorem elements_ofList (xs : List (Sexpr A)) : (ofList xs).elements = some xs := by
  unfold ofList
  rw [elements_dotted]
  simp [nil, elements]

theorem eq_ofList : ∀ {x : Sexpr A} {xs : List (Sexpr A)}, x.elements = some xs → x = ofList xs
  | .symbol .nil, xs, h => by
    rw [elements] at h
    cases h
    rfl
  | .cons car cdr, xs, h => by
    rw [elements, map_eq_some_iff] at h
    obtain ⟨ys, hys, rfl⟩ := h
    exact congrArg (Sexpr.cons car) (eq_ofList hys)

@[simp] theorem cars_ofList : ∀ xs : List (Sexpr A), (ofList xs).cars = xs
  | [] => rfl
  | x :: xs => congrArg (x :: ·) (cars_ofList xs)

theorem ofList_list (xs : List (Sexpr A)) :
    ((ofList xs).isAtom && !(ofList xs).isSymbol .nil) = false := by
  cases xs <;> rfl

theorem listStar_cons (x : Sexpr A) (h : xs ≠ []) : listStar (x :: xs) = .cons x (listStar xs) := by
  cases xs with
  | nil => exact absurd rfl h
  | cons y ys => rfl

end Sexpr

theorem evalForm_quoted (x : Sexpr A) : evalForm env (.quoted x) = some x := by
  rw [Sexpr.quoted, Sexpr.ofList, Sexpr.dotted_cons, Sexpr.dotted_cons, Sexpr.dotted_nil,
    Sexpr.nil, evalForm]

theorem evalForm_fn (f : Fn) (args : Sexpr A) :
    evalForm env (.cons (.symbol (.fn f)) args) = (evalArgs env args).bind f.apply := by
  rw [evalForm]
  rfl

theorem evalArgs_cons (form rest : Sexpr A) : evalArgs env (.cons form rest)
    = (evalForm env form).bind fun value => (evalArgs env rest).map (value :: ·) := by
  rw [evalArgs]
  cases evalForm env form with
  | none => rfl
  | some value => cases evalArgs env rest <;> rfl

theorem evalArgs_ofList : ∀ forms : List (Sexpr A), evalArgs env (.ofList forms) =
    forms.mapM (evalForm env)
  | [] => by simp [Sexpr.ofList, Sexpr.nil, evalArgs]
  | form :: forms => by
    have ih := evalArgs_ofList forms
    rw [Sexpr.ofList, Sexpr.dotted_cons, evalArgs_cons, ← Sexpr.ofList, ih, mapM_cons]
    cases evalForm env form with
    | none => rfl
    | some value => cases List.mapM (evalForm env) forms <;> rfl

theorem evalForm_call (f : Fn) (forms : List (Sexpr A)) :
    evalForm env (.call f forms) = (forms.mapM (evalForm env)).bind f.apply := by
  rw [Sexpr.call, evalForm_fn, evalArgs_ofList]

theorem evalForm_of_atomConstP (h : atomConstP x = true) : evalForm env x = some x := by
  cases x with
  | symbol s =>
    rw [evalForm]
    exact if_pos h
  | cons car cdr => cases h
  | _ => rw [evalForm]; all_goals simp

/-! ## What subforms stand for -/

namespace Subform

/-- The value of the form, which a splicing parent takes as a list. -/
def value (env : Sexpr A → Option (Sexpr A)) (sf : Subform A) : Option (Sexpr A) :=
  if sf.operator = .quote then some sf.exp else evalForm env sf.exp

/-- The elements that the subform adds to a list. -/
def values (env : Sexpr A → Option (Sexpr A)) (sf : Subform A) : Option (List (Sexpr A)) :=
  if sf.splicing then (sf.value env).bind Sexpr.elements else (sf.value env).map ([·])

theorem evalForm_render (sf : Subform A) : evalForm env sf.render = sf.value env := by
  unfold render value
  by_cases hquote : sf.operator = .quote
  · rw [if_pos hquote]
    cases hconst : atomConstP sf.exp with
    | false => rw [if_pos ⟨hquote, rfl⟩, evalForm_quoted]
    | true => rw [if_neg (by simp), evalForm_of_atomConstP hconst]
  · rw [if_neg hquote, if_neg fun h => hquote h.1]

theorem value_of_constP {sf : Subform A} (h : sf.constP = true) :
    sf.value env = some sf.constVal := by
  unfold value constVal
  by_cases hquote : sf.operator = .quote
  · rw [if_pos hquote, if_pos hquote]
  rw [if_neg hquote, if_neg hquote]
  unfold constP at h
  rw [decide_eq_false hquote, Bool.false_or] at h
  split at h
  · rename_i x heq
    rw [heq, evalForm]
  rename_i hnot
  split
  · rename_i car second rest heq
    rw [heq] at h
    cases h
  · exact evalForm_of_atomConstP h

end Subform

/-- What the list of the subforms stands for. With a dot, the last one is the last cdr. -/
def denote (env : Sexpr A → Option (Sexpr A)) (dotP : Bool) : List (Subform A) → Option (Sexpr A)
  | [] => some .nil
  | [sf] => if dotP || sf.splicing then sf.value env else (sf.value env).map fun v => .ofList [v]
  | sf :: rest => (sf.values env).bind fun front => (denote env dotP rest).map (.dotted front)

theorem denote_cons (sf : Subform A) (h : rest ≠ []) (dotP : Bool) :
    denote env dotP (sf :: rest) = (sf.values env).bind fun front =>
      (denote env dotP rest).map (.dotted front) := by
  cases rest with
  | nil => exact absurd rfl h
  | cons sf' rest => rfl

theorem denote_singleton {sf : Subform A} (h : sf.values env = some front) :
    denote env false [sf] = some (.ofList front) := by
  unfold Subform.values at h
  unfold denote
  cases hsplice : sf.splicing with
  | true =>
    rw [hsplice, if_pos rfl] at h
    obtain ⟨v, hv, hfront⟩ := bind_eq_some_iff.1 h
    rw [if_pos (by simp), hv, Sexpr.eq_ofList hfront]
  | false =>
    rw [hsplice, if_neg (by simp), map_eq_some_iff] at h
    obtain ⟨v, hv, rfl⟩ := h
    rw [if_neg (by simp), hv]
    rfl

/-! ## Folding -/

theorem denote_append {rest rest' : List (Subform A)} {dotP dotP' : Bool} (h : rest ≠ [])
    (h' : rest' ≠ []) (heq : denote env dotP rest = denote env dotP' rest') :
    ∀ front : List (Subform A), denote env dotP (front ++ rest) = denote env dotP' (front ++ rest')
  | [] => heq
  | sf :: front => by
    have ih := denote_append h h' heq front
    rw [cons_append, cons_append, denote_cons sf (by simp [h]), denote_cons sf (by simp [h']), ih]

theorem constTailp_suffix : ∀ subforms : List (Subform A), ∃ front,
    subforms = front ++ constTailp subforms
  | [] => ⟨[], rfl⟩
  | sf :: rest => by
    obtain ⟨front, hfront⟩ := constTailp_suffix rest
    unfold constTailp
    by_cases hall : (constTailp rest).length = rest.length ∧ sf.operator = .quote
    · exact ⟨[], by simp [hall]⟩
    · refine ⟨sf :: front, ?_⟩
      rw [if_neg hall]
      exact congrArg (sf :: ·) hfront

theorem operator_of_mem_constTailp : ∀ {subforms : List (Subform A)} {sf : Subform A},
    sf ∈ constTailp subforms → sf.operator = .quote
  | sf' :: rest, sf, h => by
    unfold constTailp at h
    dsimp only at h
    split at h
    · rename_i hall
      obtain ⟨front, hfront⟩ := constTailp_suffix rest
      have hnil : front = [] := by
        have hlen := congrArg List.length hfront
        rw [length_append, hall.1] at hlen
        exact eq_nil_of_length_eq_zero (by omega)
      rw [hnil, nil_append] at hfront
      rcases mem_cons.mp h with rfl | hmem
      · exact hall.2
      · exact operator_of_mem_constTailp (hfront ▸ hmem)
    · exact operator_of_mem_constTailp h

theorem denote_constants (dotP : Bool) : ∀ {constants : List (Subform A)}, constants ≠ [] →
    (∀ sf ∈ constants, sf.operator = .quote) → denote env dotP constants
      = some (if dotP then .listStar (constants.map Subform.exp) else .ofList
        (constants.map Subform.exp))
  | [sf], _, hquote => by
    have hop := hquote sf (by simp)
    simp only [denote, Subform.value, Subform.splicing, hop]
    cases dotP <;> rfl
  | sf :: sf' :: rest, _, hquote => by
    have ih := @denote_constants dotP (sf' :: rest) (by simp) fun x hx => hquote x (by simp [hx])
    have hop := hquote sf (by simp)
    rw [denote_cons sf (by simp), ih]
    simp only [Subform.values, Subform.value, Subform.splicing, hop]
    cases dotP <;> rfl

theorem foldConstants_cases (subforms : List (Subform A)) (dotP : Bool) :
    foldConstants subforms dotP = (subforms, dotP) ∨
      ∃ front constants : List (Subform A), subforms = front ++ constants ∧ constants ≠ [] ∧
        (∀ sf ∈ constants, sf.operator = .quote) ∧
        foldConstants subforms dotP = (front ++ [⟨if dotP then .listStar (constants.map Subform.exp)
          else .ofList (constants.map Subform.exp), .quote⟩], true) := by
  unfold foldConstants
  by_cases hlen : subforms.length ≤ 1
  · exact .inl (by simp [hlen])
  simp only [hlen, if_false]
  obtain ⟨front, hfront⟩ := constTailp_suffix subforms
  have hquote := @operator_of_mem_constTailp A subforms
  generalize constTailp subforms = constTail at hfront hquote
  cases constTail with
  | nil => exact .inl rfl
  | cons sf rest =>
    have htake : subforms.take (subforms.length - (sf :: rest).length) = front := by
      rw [hfront, length_append, Nat.add_sub_cancel, take_left]
    refine .inr ⟨front, sf :: rest, hfront, by simp, fun x hx => hquote hx, ?_⟩
    rw [← htake]

theorem denote_foldConstants (subforms : List (Subform A)) (dotP : Bool) :
    denote env (foldConstants subforms dotP).2 (foldConstants subforms dotP).1 =
      denote env dotP subforms := by
  rcases foldConstants_cases subforms dotP with hsame | ⟨front, constants, hsubforms,
    hne, hquote, hfold⟩
  · rw [hsame]
  rw [hfold, hsubforms]
  refine denote_append (by simp) hne ?_ front
  rw [denote_constants dotP hne hquote]
  rfl

theorem unspliceLast_ne_nil : ∀ {subforms : List (Subform A)}, subforms ≠ [] →
    unspliceLast subforms ≠ []
  | [_], _ => by simp [unspliceLast]
  | _ :: _ :: _, _ => by simp [unspliceLast]

theorem denote_unspliceLast : ∀ {subforms : List (Subform A)}, convertibleP subforms = true →
    denote env true (unspliceLast subforms) = denote env false subforms
  | [sf], h => by
    have hsplice : sf.splicing = true := h
    simp only [unspliceLast, denote, hsplice, Subform.value]
    have hop : sf.operator ≠ .quote := by
      intro heq
      simp [Subform.splicing, heq] at hsplice
    simp [hop]
  | sf :: sf' :: rest, h => by
    have hrest : convertibleP (sf' :: rest) = true := by
      have h' : (!sf.splicing && convertibleP (sf' :: rest)) = true := h
      exact (and_eq_true_iff.mp h').2
    have ih := denote_unspliceLast hrest
    rw [unspliceLast, denote_cons sf (unspliceLast_ne_nil (by simp)), denote_cons sf (by simp), ih]
    simp

theorem denote_qqFoldSuffix (subforms : List (Subform A)) (dotP vectorp : Bool) :
    denote env (qqFoldSuffix subforms dotP vectorp).2 (qqFoldSuffix subforms dotP vectorp).1 =
      denote env dotP subforms := by
  rw [← denote_foldConstants subforms dotP]
  unfold qqFoldSuffix
  generalize foldConstants subforms dotP = folded
  dsimp only
  split
  · rename_i h
    simp only [and_eq_true, not_eq_true'] at h
    rw [h.1.1]
    exact denote_unspliceLast h.2
  · rfl

/-! ## Nested list constructors -/

/-- Adding a value to a tail in front, in one call or in two. -/
structure Joins (f : Fn) (head : Sexpr A) (front : List (Sexpr A)) : Prop where
  pair : ∀ tail : Sexpr A, f.apply [head, tail] = some (.dotted front tail)
  merged : ∀ (args : List (Sexpr A)) (tail : Sexpr A), f.apply args = some tail →
    f.apply (head :: args) = some (.dotted front tail)

theorem apply_listStar (args : List (Sexpr A)) :
    Fn.listStar.apply args = if args = [] then none else some (.listStar args) := rfl

theorem apply_append (args : List (Sexpr A)) : Fn.append.apply args = appendArgs args := rfl

theorem apply_nconc (args : List (Sexpr A)) : Fn.nconc.apply args = nconcArgs args := rfl

theorem joins_listStar (compilerP : Bool) (head : Sexpr A) :
    Joins (normalizeFn compilerP .foldableListStar) head [head] := by
  have hstar : Joins Fn.listStar head [head] := by
    refine ⟨fun tail => rfl, fun args tail h => ?_⟩
    have hne : args ≠ [] := by
      intro hnil
      rw [hnil] at h
      cases h
    have htail : Sexpr.listStar args = tail := by
      simpa [apply_listStar, hne] using h
    rw [apply_listStar, if_neg (by simp), Sexpr.listStar_cons head hne, htail]
    rfl
  cases compilerP with
  | true => exact ⟨hstar.pair, hstar.merged⟩
  | false => exact hstar

theorem joins_append (compilerP : Bool) (front : List (Sexpr A)) :
    Joins (normalizeFn compilerP .foldableAppend) (.ofList front) front := by
  have happend : Joins Fn.append (.ofList front) front := by
    refine ⟨fun tail => ?_, fun args tail h => ?_⟩
    · simp [apply_append, appendArgs]
    cases args with
    | nil =>
      cases h
      rfl
    | cons x xs =>
      have hrest : appendArgs (x :: xs) = some tail := h
      simp [apply_append, appendArgs, hrest]
  cases compilerP with
  | true => exact ⟨happend.pair, happend.merged⟩
  | false => exact happend

theorem joins_nconc (compilerP : Bool) (front : List (Sexpr A)) :
    Joins (normalizeFn compilerP .nconc) (.ofList front) front := by
  have hnconc : Joins Fn.nconc (.ofList front) front := by
    refine ⟨fun tail => ?_, fun args tail h => ?_⟩
    · simp [apply_nconc, nconcArgs, Sexpr.ofList_list]
    cases args with
    | nil =>
      cases h
      rfl
    | cons x xs =>
      have hrest : nconcArgs (x :: xs) = some tail := h
      simp [apply_nconc, nconcArgs, hrest, Sexpr.ofList_list]
  cases compilerP <;> exact hnconc

theorem joins_consFn {sf : Subform A} (compilerP : Bool) (h : sf.values env = some front) :
    ∃ head, sf.value env = some head ∧ Joins (normalizeFn compilerP sf.consFn) head front := by
  unfold Subform.values at h
  cases hsplice : sf.splicing with
  | false =>
    rw [hsplice, if_neg (by simp), map_eq_some_iff] at h
    obtain ⟨v, hv, rfl⟩ := h
    have hfn : sf.consFn = .foldableListStar := by
      unfold Subform.splicing at hsplice
      unfold Subform.consFn
      split <;> simp_all
    rw [hfn]
    exact ⟨v, hv, joins_listStar compilerP v⟩
  | true =>
    rw [hsplice, if_pos rfl] at h
    obtain ⟨v, hv, hfront⟩ := bind_eq_some_iff.1 h
    refine ⟨v, hv, ?_⟩
    rw [Sexpr.eq_ofList hfront]
    simp only [Subform.splicing, or_eq_true, decide_eq_true_eq] at hsplice
    unfold Subform.consFn
    rcases hsplice with hop | hop
    · rw [hop]
      exact joins_append compilerP front
    · rw [hop]
      exact joins_nconc compilerP front

theorem evalForm_mergeCall {f : Fn} {form tailForm head tail : Sexpr A}
    (hjoins : Joins f head front) (hhead : evalForm env form = some head)
    (htail : evalForm env tailForm = some tail) :
    evalForm env (mergeCall f form tailForm) = some (.dotted front tail) := by
  have hpair : evalForm env (.call f [form, tailForm]) = some (.dotted front tail) := by
    rw [evalForm_call]
    simp [hhead, htail, hjoins.pair]
  unfold mergeCall
  split
  · rename_i g args
    split
    · rename_i heq
      subst heq
      rw [evalForm_fn] at htail
      obtain ⟨values, hvalues, happly⟩ := bind_eq_some_iff.1 htail
      rw [evalForm_fn, evalArgs_cons, hhead, hvalues]
      exact hjoins.merged values tail happly
    · exact hpair
  · exact hpair

theorem elements_of_dotted {last : Sexpr A} (h : (Sexpr.dotted front last).elements.isSome) :
    last.elements.isSome := by
  rw [Sexpr.elements_dotted, isSome_map] at h
  exact h

theorem evalForm_recurse (compilerP dotP vectorp : Bool) :
    ∀ {subforms : List (Subform A)} {v : Sexpr A}, subforms ≠ [] →
    denote env dotP subforms = some v → (vectorp = true → v.elements.isSome) →
    evalForm env (recurse compilerP dotP vectorp subforms) = some v
  | [sf], v, _, h, hproper => by
    unfold recurse
    unfold denote at h
    cases hlast : dotP || sf.splicing with
    | true =>
      rw [hlast, if_pos rfl] at h
      rw [if_pos rfl]
      cases vectorp with
      | false =>
        rw [if_neg (by simp), Subform.evalForm_render]
        exact h
      | true =>
        obtain ⟨xs, hxs⟩ := isSome_iff_exists.mp (hproper rfl)
        have hnil : evalForm env (.nil : Sexpr A) = some .nil := evalForm_of_atomConstP rfl
        have happly := (joins_append compilerP xs).pair .nil
        rw [← Sexpr.eq_ofList hxs] at happly
        rw [if_pos rfl, evalForm_call]
        simp only [mapM_cons, Subform.evalForm_render, h, hnil, mapM_nil]
        exact happly.trans (congrArg some (Sexpr.eq_ofList hxs).symm)
    | false =>
      rw [hlast, if_neg (by simp), map_eq_some_iff] at h
      obtain ⟨value, hvalue, rfl⟩ := h
      rw [if_neg (by simp)]
      split
      · rename_i hconst
        have hval := @Subform.value_of_constP A env sf hconst
        rw [hvalue] at hval
        cases hval
        exact evalForm_quoted _
      · rw [evalForm_call]
        simp only [mapM_cons, Subform.evalForm_render, hvalue, mapM_nil]
        cases compilerP <;> rfl
  | sf :: sf' :: rest, v, _, h, hproper => by
    rw [denote_cons sf (by simp)] at h
    obtain ⟨front, hfront, h⟩ := bind_eq_some_iff.1 h
    obtain ⟨last, hlast, rfl⟩ := map_eq_some_iff.1 h
    obtain ⟨head, hhead, hjoins⟩ := joins_consFn compilerP hfront
    have ih := evalForm_recurse compilerP dotP vectorp (by simp) hlast fun hv =>
      elements_of_dotted (hproper hv)
    exact evalForm_mergeCall hjoins ((Subform.evalForm_render sf).trans hhead) ih

/-! ## One call for a list or vector -/

/-- The subform does not splice, and stands for the value. -/
structure Single (env : Sexpr A → Option (Sexpr A)) (sf : Subform A) (v : Sexpr A) : Prop where
  operator : sf.operator = .eval ∨ sf.operator = .quote
  value : sf.value env = some v

namespace Single

variable {sf : Subform A} {v : Sexpr A}

theorem splicing (h : Single env sf v) : sf.splicing = false := by
  unfold Subform.splicing
  rcases h.operator with hop | hop <;> simp [hop]

theorem values (h : Single env sf v) : sf.values env = some [v] := by
  unfold Subform.values
  rw [h.splicing, if_neg (by simp), h.value]
  rfl

theorem ofEval (h : evalForm env form = some v) : Single env ⟨form, .eval⟩ v :=
  ⟨.inl rfl, h⟩

theorem ofQuote (x : Sexpr A) : Single env ⟨x, .quote⟩ x := ⟨.inr rfl, rfl⟩

end Single

theorem ne_nil_of_mapM {α β : Type} {f : α → Option β} {xs : List α} {ys : List β} (hne : xs ≠ [])
    (h : xs.mapM f = some ys) : ys ≠ [] := by
  intro hnil
  cases xs with
  | nil => exact hne rfl
  | cons x xs =>
    rw [mapM_cons, hnil] at h
    cases hx : f x with
    | none => simp [hx] at h
    | some y => cases hxs : List.mapM f xs <;> simp [hx, hxs] at h

theorem denote_of_not_splicing (dotP : Bool) :
    ∀ {subforms : List (Subform A)} {v : Sexpr A}, subforms ≠ [] →
    subforms.any Subform.splicing = false → denote env dotP subforms = some v →
    ∃ vals, subforms.mapM (Subform.value env) = some vals ∧
      v = if dotP then .listStar vals else .ofList vals
  | [sf], v, _, hsplice, h => by
    have hsf : sf.splicing = false := by simpa using hsplice
    unfold denote at h
    rw [hsf, Bool.or_false] at h
    cases dotP with
    | true =>
      rw [if_pos rfl] at h
      exact ⟨[v], by simp [h], rfl⟩
    | false =>
      rw [if_neg (by simp), map_eq_some_iff] at h
      obtain ⟨value, hvalue, rfl⟩ := h
      exact ⟨[value], by simp [hvalue], rfl⟩
  | sf :: sf' :: rest, v, _, hsplice, h => by
    rw [any_cons, or_eq_false_iff] at hsplice
    rw [denote_cons sf (by simp)] at h
    obtain ⟨front, hfront, h⟩ := bind_eq_some_iff.1 h
    obtain ⟨last, hlast, rfl⟩ := map_eq_some_iff.1 h
    unfold Subform.values at hfront
    rw [hsplice.1, if_neg (by simp), map_eq_some_iff] at hfront
    obtain ⟨value, hvalue, rfl⟩ := hfront
    obtain ⟨vals, hvals, rfl⟩ := denote_of_not_splicing dotP (by simp) hsplice.2 hlast
    refine ⟨value :: vals, ?_, ?_⟩
    · rw [mapM_cons, hvalue, hvals]
      rfl
    have hne := ne_nil_of_mapM (by simp) hvals
    cases dotP with
    | true => exact (Sexpr.listStar_cons value hne).symm
    | false => rfl

theorem mapM_render (subforms : List (Subform A)) :
    (subforms.map Subform.render).mapM (evalForm env) = subforms.mapM (Subform.value env) := by
  induction subforms with
  | nil => rfl
  | cons sf rest ih => rw [map_cons, mapM_cons, mapM_cons, ih, Subform.evalForm_render]

theorem mapM_constVal : ∀ {subforms : List (Subform A)}, subforms.all Subform.constP = true →
    subforms.mapM (Subform.value env) = some (subforms.map Subform.constVal)
  | [], _ => rfl
  | sf :: rest, h => by
    rw [all_cons, and_eq_true] at h
    rw [mapM_cons, mapM_constVal h.2, Subform.value_of_constP h.1]
    rfl

variable {subforms : List (Subform A)}

theorem single_qqTemplate1_list (compilerP dotP : Bool) {v : Sexpr A} (hne : subforms ≠ [])
    (h : denote env dotP subforms = some v) :
    Single env (qqTemplate1 compilerP false subforms dotP) v := by
  unfold qqTemplate1
  cases hsplice : subforms.any Subform.splicing with
  | true => exact .ofEval (evalForm_recurse compilerP dotP false hne h fun hv =>
    absurd hv (by simp))
  | false =>
    obtain ⟨vals, hvals, rfl⟩ := denote_of_not_splicing dotP hne hsplice h
    rw [if_neg (by simp)]
    split
    · rename_i hconst
      rw [mapM_constVal hconst] at hvals
      cases hvals
      exact .ofQuote _
    · apply Single.ofEval
      rw [if_neg (by simp), evalForm_call, mapM_render, hvals]
      have hvalsne := ne_nil_of_mapM hne hvals
      cases dotP <;> cases compilerP <;> simp [normalizeFn, Fn.apply, hvalsne]

theorem single_qqTemplate1_vector (compilerP : Bool) {vals : List (Sexpr A)}
    (hsplice : subforms.any Subform.splicing = false)
    (h : subforms.mapM (Subform.value env) = some vals) :
    Single env (qqTemplate1 compilerP true subforms false) (.vector vals) := by
  unfold qqTemplate1
  rw [hsplice, if_neg (by simp)]
  split
  · rename_i hconst
    rw [mapM_constVal hconst] at h
    cases h
    exact .ofQuote _
  · apply Single.ofEval
    rw [if_pos rfl, evalForm_call, mapM_render, h]
    cases compilerP <;> rfl

theorem qqFoldSuffix_ne_nil (h : subforms ≠ []) (dotP vectorp : Bool) :
    (qqFoldSuffix subforms dotP vectorp).1 ≠ [] := by
  have hfold : (foldConstants subforms dotP).1 ≠ [] := by
    rcases foldConstants_cases subforms dotP with hsame | ⟨front, constants, -, -, -, hfold⟩
    · rw [hsame]
      exact h
    · simp [hfold]
  unfold qqFoldSuffix
  generalize foldConstants subforms dotP = folded at hfold
  dsimp only
  split
  · exact unspliceLast_ne_nil hfold
  · exact hfold

theorem any_splicing_qqFoldSuffix (h : subforms.any Subform.splicing = true) (dotP : Bool) :
    (qqFoldSuffix subforms dotP true).1.any Subform.splicing = true := by
  have hvector : qqFoldSuffix subforms dotP true = foldConstants subforms dotP := by
    unfold qqFoldSuffix
    simp
  rw [hvector]
  rcases foldConstants_cases subforms dotP with hsame | ⟨front, constants, hsubforms,
    -, hquote, hfold⟩
  · rw [hsame]
    exact h
  have hconst : constants.any Subform.splicing = false := by
    rw [List.any_eq_false]
    intro x hx
    simp [Subform.splicing, hquote x hx]
  rw [hsubforms, any_append, hconst, Bool.or_false] at h
  rw [hfold, any_append, h, Bool.true_or]

theorem single_qqList (compilerP : Bool) {rest : List (Subform A) × Bool} {v : Sexpr A}
    (h : denote env rest.2 (first :: rest.1) = some v) :
    Single env (qqList compilerP first rest) v := by
  rw [← denote_qqFoldSuffix (first :: rest.1) rest.2 false] at h
  exact single_qqTemplate1_list compilerP _ (qqFoldSuffix_ne_nil (by simp) rest.2 false) h

/-- The elements of several subforms, one after the other. -/
def allValues (env : Sexpr A → Option (Sexpr A)) : List (Subform A) → Option (List (Sexpr A))
  | [] => some []
  | sf :: rest => (sf.values env).bind fun front => (allValues env rest).map (front ++ ·)

theorem denote_of_allValues : ∀ {subforms : List (Subform A)} {xs : List (Sexpr A)},
    allValues env subforms = some xs → denote env false subforms = some (.ofList xs)
  | [], xs, h => by
    cases h
    rfl
  | sf :: rest, xs, h => by
    rw [allValues] at h
    obtain ⟨front, hfront, h⟩ := bind_eq_some_iff.1 h
    obtain ⟨back, hback, rfl⟩ := map_eq_some_iff.1 h
    cases rest with
    | nil =>
      cases hback
      rw [append_nil]
      exact denote_singleton hfront
    | cons sf' rest =>
      rw [denote_cons sf (by simp), hfront, denote_of_allValues hback]
      show some (Sexpr.dotted front (.ofList back)) = _
      have helements : (Sexpr.dotted front (.ofList back)).elements = some (front ++ back) := by
        rw [Sexpr.elements_dotted, Sexpr.elements_ofList]
        rfl
      rw [Sexpr.eq_ofList helements]

theorem mapM_of_allValues : ∀ {subforms : List (Subform A)} {xs : List (Sexpr A)},
    subforms.any Subform.splicing = false → allValues env subforms = some xs →
    subforms.mapM (Subform.value env) = some xs
  | [], xs, _, h => h
  | sf :: rest, xs, hsplice, h => by
    rw [any_cons, or_eq_false_iff] at hsplice
    rw [allValues] at h
    obtain ⟨front, hfront, h⟩ := bind_eq_some_iff.1 h
    obtain ⟨back, hback, rfl⟩ := map_eq_some_iff.1 h
    unfold Subform.values at hfront
    rw [hsplice.1, if_neg (by simp), map_eq_some_iff] at hfront
    obtain ⟨value, hvalue, rfl⟩ := hfront
    rw [mapM_cons, hvalue, mapM_of_allValues hsplice.2 hback]
    rfl

theorem single_qqVector (compilerP : Bool)
    (h : allValues env subforms = some xs) :
    Single env (qqVector compilerP subforms) (.vector xs) := by
  unfold qqVector
  cases hsplice : subforms.any Subform.splicing with
  | false =>
    rw [if_neg (by simp)]
    exact single_qqTemplate1_vector compilerP hsplice (mapM_of_allValues hsplice h)
  | true =>
    rw [if_pos rfl]
    have hne : subforms ≠ [] := by
      rintro rfl
      cases hsplice
    have hdenote := denote_of_allValues h
    rw [← denote_qqFoldSuffix subforms false true] at hdenote
    have hfolded := any_splicing_qqFoldSuffix hsplice false
    generalize hfold : qqFoldSuffix subforms false true = folded at hdenote hfolded
    dsimp only
    unfold qqTemplate1
    rw [hfolded, if_pos rfl]
    dsimp only
    rw [if_pos rfl]
    have hx := evalForm_recurse compilerP folded.2 true
      (by rw [← hfold]; exact qqFoldSuffix_ne_nil hne _ _) hdenote
      fun _ => by rw [Sexpr.elements_ofList]; rfl
    apply Single.ofEval
    rw [evalForm_call]
    simp only [mapM_cons, mapM_nil, hx, evalForm_quoted]
    show Fn.coerce.apply [.ofList xs, .symbol .simpleVector] = _
    cases xs with
    | nil => rfl
    | cons x xs =>
      have helements := Sexpr.elements_ofList (x :: xs)
      show ((Sexpr.ofList (x :: xs)).elements.map Sexpr.vector) = _
      rw [helements]
      rfl

/-! ## Commas of the inner levels -/

variable {kind : CommaKind} {sub : Subform A}

theorem values_commaData_of_single {v : Sexpr A} (h : Single env sub v) :
    Single env (commaData kind sub) (.comma v kind) := by
  have hcall : ∀ form, evalForm env form = some v →
      evalForm env (.call kind.constructor [form]) = some (.comma v kind) := by
    intro form hform
    rw [evalForm_call]
    simp only [mapM_cons, mapM_nil, hform]
    cases kind <;> rfl
  have hvalue := h.value
  unfold commaData
  unfold Subform.value at hvalue
  rcases h.operator with hop | hop
  · rw [hop] at hvalue ⊢
    exact .ofEval (hcall _ hvalue)
  · rw [hop] at hvalue ⊢
    cases hvalue
    exact .ofEval (hcall _ (evalForm_quoted _))

theorem values_commaData_of_splicing {xs : List (Sexpr A)}
    (hsplice : sub.splicing = true) (h : sub.values env = some xs) :
    (commaData kind sub).splicing = true ∧
      (commaData kind sub).values env =
        some (xs.map (.comma · (if kind.splicing then .atSign else kind))) := by
  have hdata : commaData kind sub
      = ⟨.call (if kind.splicing then .unquoteStarSplice else .unquoteStar) [sub.exp],
        sub.operator⟩ := by
    simp only [Subform.splicing, or_eq_true, decide_eq_true_eq] at hsplice
    unfold commaData
    rcases hsplice with hop | hop <;> rw [hop]
  have hnot : sub.operator ≠ .quote := by
    intro hop
    simp [Subform.splicing, hop] at hsplice
  have hsplice' : (commaData kind sub).splicing = true := by
    rw [hdata]
    exact hsplice
  refine ⟨hsplice', ?_⟩
  unfold Subform.values at h ⊢
  rw [hsplice, if_pos rfl] at h
  obtain ⟨v, hv, hxs⟩ := bind_eq_some_iff.1 h
  unfold Subform.value at hv
  rw [if_neg hnot] at hv
  rw [hsplice', if_pos rfl, hdata]
  unfold Subform.value
  rw [if_neg hnot, evalForm_call]
  simp only [mapM_cons, mapM_nil, hv]
  cases kind with
  | eval =>
    show (Fn.unquoteStar.apply [v]).bind Sexpr.elements = _
    simp [Fn.apply, hxs, CommaKind.splicing]
  | dot | atSign =>
    show (Fn.unquoteStarSplice.apply [v]).bind Sexpr.elements = _
    simp [Fn.apply, hxs, CommaKind.splicing]

theorem isSymbol_rebuiltElement (name : Symbol) (depth : ℕ) (x : Sexpr A) :
    (rebuiltElement depth x).isSymbol name = x.isSymbol name := by
  cases x with
  | comma expr kind => cases depth <;> simp [rebuiltElement, Sexpr.isSymbol]
  | _ => simp [rebuiltElement, Sexpr.isSymbol]

@[simp] theorem depthBelow_rebuiltElement (depth depth' : ℕ) (x : Sexpr A) :
    depthBelow depth (rebuiltElement depth' x) = depthBelow depth x := by
  unfold depthBelow
  rw [isSymbol_rebuiltElement]

/-! ## Templates -/

/-- The subform of a template stands for the elements of the formal rules. -/
structure Stands (env : Sexpr A → Option (Sexpr A)) (splice : Bool) (sf : Subform A)
    (xs : List (Sexpr A)) : Prop where
  splicing : sf.splicing = splice
  operator : sf.operator ≠ .nil
  values : sf.values env = some xs

theorem Single.stands {sf : Subform A} {v : Sexpr A} (h : Single env sf v) :
    Stands env false sf [v] :=
  ⟨h.splicing, by rcases h.operator with hop | hop <;> simp [hop], h.values⟩

/-- Only commas stand for several elements. -/
theorem Single.stands_of_not_comma {sf : Subform A} {v x : Sexpr A}
    (h : Single env sf v) (depth : ℕ)
    (hx : ∀ expr kind, x ≠ .comma expr kind) : Stands env (splices depth x) sf [v] := by
  have hsplices : splices depth x = false := by
    cases x with
    | comma expr kind => exact absurd rfl (hx expr kind)
    | _ => cases depth <;> rfl
  rw [hsplices]
  exact h.stands

theorem Stands.single {sf : Subform A} (h : Stands env false sf xs) : ∃ v, xs = [v] ∧
    Single env sf v := by
  have hvalues := h.values
  unfold Subform.values at hvalues
  rw [h.splicing, if_neg (by simp), map_eq_some_iff] at hvalues
  obtain ⟨v, hv, rfl⟩ := hvalues
  refine ⟨v, rfl, ?_, hv⟩
  have hsplice := h.splicing
  have hnil := h.operator
  unfold Subform.splicing at hsplice
  cases hop : sf.operator <;> simp_all

theorem stands_commaData {splice : Bool} {xs : List (Sexpr A)}
    (h : Stands env splice sub xs) : Stands env splice (commaData kind sub)
      (xs.map (.comma · (if kind.splicing && splice then .atSign else kind))) := by
  cases splice with
  | false =>
    obtain ⟨v, rfl, hsingle⟩ := h.single
    rw [Bool.and_false, if_neg (by simp)]
    exact (values_commaData_of_single hsingle).stands
  | true =>
    obtain ⟨hsplice, hvalues⟩ := @values_commaData_of_splicing A env kind sub xs h.splicing h.values
    rw [Bool.and_true]
    refine ⟨hsplice, ?_, hvalues⟩
    intro hop
    simp [Subform.splicing, hop] at hsplice

/-- What comes after an element stands for the tail of the formal rules. -/
structure Follows (env : Sexpr A → Option (Sexpr A)) (rest : List (Subform A) × Bool)
    (v : Sexpr A) : Prop where
  denote : ∀ {sf : Subform A} {front : List (Sexpr A)}, sf.values env = some front →
    denote env rest.2 (sf :: rest.1) = some (.dotted front v)

theorem follows_nil : Follows env ([], false) (.nil : Sexpr A) := ⟨fun h => denote_singleton h⟩

theorem Follows.cons {sf : Subform A} {front : List (Sexpr A)}
    {rest : List (Subform A) × Bool} {v : Sexpr A}
    (hfront : sf.values env = some front) (h : Follows env rest v) :
    Follows env (sf :: rest.1, rest.2) (.dotted front v) := by
  refine ⟨fun {sf' front'} hfront' => ?_⟩
  rw [denote_cons sf' (by simp), hfront', h.denote hfront]
  rfl

theorem follows_dot {sf : Subform A} {v : Sexpr A} (h : Single env sf v) :
    Follows env ([sf], true) v := by
  refine ⟨fun {sf' front'} hfront' => ?_⟩
  rw [denote_cons sf' (by simp), hfront']
  show ((sf.value env).map _) = _
  rw [h.value]
  rfl

theorem follows_splice {sf : Subform A} {v : Sexpr A} (hsplice : sf.splicing = true)
    (h : sf.value env = some v) : Follows env ([sf], false) v := by
  refine ⟨fun {sf' front'} hfront' => ?_⟩
  rw [denote_cons sf' (by simp), hfront']
  show ((denote env false [sf]).map _) = _
  rw [denote, hsplice, Bool.or_true, if_pos rfl, h]
  rfl

theorem follows_elements {sf : Subform A} (h : sf.values env = some xs) :
    Follows env ([sf], false) (.ofList xs) := by
  have hcons := follows_nil.cons h
  exact hcons

theorem Follows.single {compilerP splice : Bool}
    {rest : List (Subform A) × Bool} {v : Sexpr A} (hfirst : Stands env splice first front)
    (h : Follows env rest v) : Single env (qqList compilerP first rest) (.dotted front v) :=
  single_qqList compilerP (h.denote hfirst.values)

mutual

theorem stands_qqTemplateToSexpr (compilerP : Bool) :
    ∀ (depth : ℕ) (x : Sexpr A) {xs : List (Sexpr A)},
    element env depth (rebuiltElement depth x) = some xs →
    ∃ sf, qqTemplateToSexpr compilerP depth x = .ok sf ∧ Stands env (splices depth x) sf xs
  | depth, .cons car cdr, xs, h => by
    rw [rebuiltElement, element, depthBelow_rebuiltElement] at h
    obtain ⟨front, hfront, h⟩ := bind_eq_some_iff.1 h
    obtain ⟨last, hlast, h⟩ := bind_eq_some_iff.1 h
    cases h
    obtain ⟨first, hfirst, hstands⟩ :=
      stands_qqTemplateToSexpr compilerP (depthBelow depth car) car hfront
    obtain ⟨rest, hrest, hfollows⟩ :=
      follows_qqMapRest compilerP (.cons car cdr) (depthBelow depth car) cdr hlast
    refine ⟨qqList compilerP first rest, ?_,
      (hfollows.single hstands).stands_of_not_comma depth (by simp)⟩
    rw [qqTemplateToSexpr, hfirst, hrest]
    rfl
  | depth, .vector elements, xs, h => by
    rw [rebuiltElement, element] at h
    obtain ⟨values, hvalues, h⟩ := bind_eq_some_iff.1 h
    cases h
    obtain ⟨subforms, hsubforms, hall⟩ := allValues_qqMapElements compilerP depth elements hvalues
    refine ⟨qqVector compilerP subforms, ?_,
      (single_qqVector compilerP hall).stands_of_not_comma depth (by simp)⟩
    rw [qqTemplateToSexpr, hsubforms]
    rfl
  | 0, .comma expr kind, xs, h => by
    rw [rebuiltElement, element, bind_eq_bind, bind_eq_some_iff] at h
    · obtain ⟨value, hvalue, h⟩ := h
      refine ⟨_, rfl, ?_, ?_, ?_⟩
      · cases kind <;> rfl
      · cases kind <;> simp [CommaKind.operator]
      · cases kind <;> simp_all [Subform.values, Subform.value, Subform.splicing,
          CommaKind.operator, CommaKind.splicing]
    all_goals simp
  | depth + 1, .comma expr kind, xs, h => by
    rw [rebuiltElement, element] at h
    obtain ⟨values, hvalues, h⟩ := bind_eq_some_iff.1 h
    cases h
    obtain ⟨sub, hsub, hstands⟩ := stands_qqTemplateToSexpr compilerP depth expr hvalues
    refine ⟨_, ?_, stands_commaData hstands⟩
    rw [qqTemplateToSexpr, hsub]
    rfl
  | depth, .symbol s, xs, h | depth, .keyword s, xs, h | depth, .atom s, xs, h => by
    cases h
    exact ⟨_, rfl, (Single.ofQuote _).stands_of_not_comma depth (by simp)⟩

theorem follows_qqMapRest (compilerP : Bool) :
    ∀ (original : Sexpr A) (depth : ℕ) (x : Sexpr A) {v : Sexpr A},
    tail env depth (rebuilt depth x) = some v →
    ∃ rest, qqMapRest compilerP original depth x = .ok rest ∧ Follows env rest v
  | original, depth, .cons car cdr, v, h => by
    rw [rebuilt, tail, depthBelow_rebuiltElement] at h
    obtain ⟨front, hfront, h⟩ := bind_eq_some_iff.1 h
    obtain ⟨last, hlast, h⟩ := bind_eq_some_iff.1 h
    cases h
    unfold depthBelow at hfront hlast
    rw [qqMapRest]
    split at hfront
    · rename_i hquasi
      rw [if_pos hquasi] at hlast ⊢
      obtain ⟨first, hfirst, hstands⟩ := stands_qqTemplateToSexpr compilerP (depth + 1) car hfront
      obtain ⟨rest, hrest, hfollows⟩ :=
        follows_qqMapRest compilerP (.cons car cdr) (depth + 1) cdr hlast
      refine ⟨([qqList compilerP first rest], true), ?_, follows_dot (hfollows.single hstands)⟩
      rw [hfirst, hrest]
      rfl
    · rename_i hquasi
      rw [if_neg hquasi] at hlast ⊢
      obtain ⟨first, hfirst, hstands⟩ := stands_qqTemplateToSexpr compilerP depth car hfront
      obtain ⟨rest, hrest, hfollows⟩ := follows_qqMapRest compilerP original depth cdr hlast
      refine ⟨_, ?_, hfollows.cons hstands.values⟩
      rw [hfirst, hrest]
      rfl
  | original, depth, .vector elements, v, h => by
    rw [rebuilt, tail] at h
    obtain ⟨values, hvalues, h⟩ := bind_eq_some_iff.1 h
    cases h
    obtain ⟨subforms, hsubforms, hall⟩ := allValues_qqMapElements compilerP depth elements hvalues
    refine ⟨([qqVector compilerP subforms], true), ?_, follows_dot (single_qqVector compilerP hall)⟩
    rw [qqMapRest, hsubforms]
    rfl
  | original, 0, .comma expr kind, v, h => by
    cases kind with
    | eval => exact ⟨_, rfl, follows_splice rfl h⟩
    | _ => cases h
  | original, depth + 1, .comma expr kind, v, h => by
    cases kind with
    | eval =>
      rw [rebuilt, if_neg (by simp [CommaKind.splicing]), tail, depthBelow,
        if_neg (by simp [Sexpr.isSymbol]), element, bind_eq_bind, bind_eq_some_iff] at h
      obtain ⟨front, hfront, h⟩ := h
      obtain ⟨values, hvalues, hfront⟩ := bind_eq_some_iff.1 hfront
      cases hfront
      rw [Sexpr.nil, tail] at h
      · cases h
        obtain ⟨sub, hsub, hstands⟩ := stands_qqTemplateToSexpr compilerP depth expr hvalues
        have hdata := (@stands_commaData A env .atSign _ _ _ hstands).values
        rw [ite_self] at hdata
        refine ⟨_, ?_, follows_elements hdata⟩
        rw [qqMapRest, if_neg (by simp [CommaKind.splicing]), hsub]
        rfl
      all_goals simp
    | _ => cases h
  | original, depth, .symbol s, v, h => by
    cases h
    cases s with
    | nil => exact ⟨_, rfl, follows_nil⟩
    | _ => exact ⟨_, rfl, follows_dot (.ofQuote _)⟩
  | original, depth, .keyword s, v, h => by
    cases h
    exact ⟨_, rfl, follows_dot (.ofQuote _)⟩
  | original, depth, .atom a, v, h => by
    cases h
    exact ⟨_, rfl, follows_dot (.ofQuote _)⟩

theorem allValues_qqMapElements (compilerP : Bool) :
    ∀ (depth : ℕ) (xs : List (Sexpr A)) {ys : List (Sexpr A)},
    vectorElements env depth (rebuiltElements depth xs) = some ys →
    ∃ subforms, qqMapElements compilerP depth xs = .ok subforms ∧ allValues env subforms = some ys
  | depth, [], ys, h => by
    cases h
    exact ⟨_, rfl, rfl⟩
  | depth, x :: xs, ys, h => by
    rw [rebuiltElements, vectorElements] at h
    obtain ⟨front, hfront, h⟩ := bind_eq_some_iff.1 h
    obtain ⟨back, hback, h⟩ := bind_eq_some_iff.1 h
    cases h
    obtain ⟨first, hfirst, hstands⟩ := stands_qqTemplateToSexpr compilerP depth x hfront
    obtain ⟨rest, hrest, hall⟩ := allValues_qqMapElements compilerP depth xs hback
    refine ⟨first :: rest, ?_, ?_⟩
    · rw [qqMapElements, hfirst, hrest]
      rfl
    · rw [allValues, hstands.values, hall]
      rfl

end

/-! ## Expansions -/

/-- At the outermost level there is no splice, so that a template is the only element of its list.
-/
theorem element_of_tail {x v : Sexpr A} (h : tail env 0 (rebuilt 0 x) = some v) :
    element env 0 (rebuiltElement 0 x) = some [v] := by
  cases x with
  | cons car cdr =>
    rw [rebuilt, tail] at h
    obtain ⟨front, hfront, h⟩ := bind_eq_some_iff.1 h
    obtain ⟨last, hlast, h⟩ := bind_eq_some_iff.1 h
    cases h
    rw [rebuiltElement, element, hfront, bind_eq_bind, bind_some, hlast]
    rfl
  | vector elements =>
    rw [rebuilt, tail] at h
    obtain ⟨values, hvalues, h⟩ := bind_eq_some_iff.1 h
    cases h
    rw [rebuiltElement, element, hvalues]
    rfl
  | comma expr kind =>
    cases kind with
    | eval =>
      have hexpr : evalForm env expr = some v := h
      rw [rebuiltElement, element, hexpr]
      · rfl
      all_goals simp
    | _ => cases h
  | _ =>
    cases h
    rfl

/-- For every template and every assignment of values to the forms in its commas, if the formal
rules define an object then the expansions of the compiler macro and of the macro evaluate to it.
The commas of the inner levels are data of that object, as `rebuilt` writes them. -/
theorem eval_expandQuasiquote (env : Sexpr A → Option (Sexpr A)) (compilerP : Bool)
    (thing v : Sexpr A) (h : tail env 0 (rebuilt 0 thing) = some v) :
    ∃ form, expandQuasiquote compilerP thing = .ok form ∧ evalForm env form = some v := by
  obtain ⟨sub, hsub, hstands⟩ := stands_qqTemplateToSexpr compilerP 0 thing (element_of_tail h)
  have hsplice : splices 0 thing = false := by
    cases thing with
    | comma expr kind =>
      cases kind with
      | eval => rfl
      | _ => cases h
    | _ => rfl
  rw [hsplice] at hstands
  obtain ⟨w, hw, hsingle⟩ := hstands.single
  cases hw
  have hvalue := hsingle.value
  unfold Subform.value at hvalue
  unfold expandQuasiquote
  rw [hsub]
  rcases hsingle.operator with hop | hop
  · rw [if_neg (by simp [hop])] at hvalue
    refine ⟨sub.exp, ?_, hvalue⟩
    simp only [bind, Except.bind, hop]
    rfl
  · rw [if_pos hop] at hvalue
    cases hvalue
    refine ⟨.quoted sub.exp, ?_, evalForm_quoted _⟩
    simp only [bind, Except.bind, hop]
    rfl

def backquoted (x : Sexpr ℕ) : Sexpr ℕ := .ofList [.symbol .quasiquote, x]

def variableX : Sexpr ℕ := .symbol (.other "X")

/-- X is the list of 1 and 2. -/
def listX (x : Sexpr ℕ) : Option (Sexpr ℕ) :=
  if x.isSymbol (.other "X") then some (.ofList [.atom 1, .atom 2]) else none

/-- ``` `#(,@X `(A ,B . ,,@X)) ``` -/
theorem eval_expandQuasiquote_nested :
    ∃ form, expandQuasiquote false (.vector [.comma variableX .atSign,
      backquoted (.dotted [.symbol (.other "A"), .comma (.symbol (.other "B")) .eval]
        (.comma (.comma variableX .atSign) .eval))]) = .ok form ∧
    evalForm listX form =
      some (.vector [.atom 1, .atom 2, backquoted (.ofList [.symbol (.other "A"),
      .comma (.symbol (.other "B")) .eval, .comma (.atom 1) .atSign, .comma (.atom 2) .atSign])]) :=
  eval_expandQuasiquote listX false _ _ rfl

/-- The template of `` `(A . ,B) `` becomes that of `` `(A ,@B) ``, and the commas of `` `(,.,@X) ``
become `,@`. -/
theorem expandQuasiquote_changes_commas :
    (∃ form v, expandQuasiquote true
      (backquoted (.cons (.symbol (.other "A")) (.comma (.symbol (.other "B")) .eval)))
        = .ok form ∧ evalForm listX form = some v ∧
      tail listX 0
        (backquoted (.cons (.symbol (.other "A")) (.comma (.symbol (.other "B")) .eval))) ≠ some v ∧
      (tail listX 0
        (backquoted (.cons (.symbol (.other "A")) (.comma (.symbol (.other "B")) .eval)))).isSome) ∧
    ∃ form v, expandQuasiquote true
      (backquoted (.ofList [.comma (.comma variableX .atSign) .dot])) = .ok form ∧
      evalForm listX form = some v ∧
      tail listX 0 (backquoted (.ofList [.comma (.comma variableX .atSign) .dot])) ≠ some v ∧
      (tail listX 0 (backquoted (.ofList [.comma (.comma variableX .atSign) .dot]))).isSome := by
  refine ⟨⟨_, _, rfl, rfl, fun h => ?_, rfl⟩, _, _, rfl, rfl, fun h => ?_, rfl⟩
  · cases h
  · cases h

end Sbcl.Backq
