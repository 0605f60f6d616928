import Sbcl.Compiler.Modarith
import Sbcl.Lib.Truncation

/-!
# Cutting to a width preserves the value

* `Registry.WellFormed` : good functions commute with truncation, modular versions respect
  congruence; `x8664` is such a registry;
* `Lvar.Sound` : the value of every node that is reached is in its derived type;
* `cutNode_modEq`, `cutUses_modEq` : a cut expression has the same low bits, of the width, or of the
  result width where a right shift reuses bits;
* `cutNode_isCut`, `cutUses_isCut` : one that is neither over-wide nor to be cut explicitly is of
  the width;
* `logandOptimizer_eq`, `maskSignedFieldOptimizer_eq`, `logiorOptimizer_eq` : the masked expression
  has the same value.
-/

namespace Sbcl.Compiler.Modarith

open Truncation
open Bool (and_eq_true false_eq_true not_eq_true or_eq_false_iff or_eq_true)
open List (all_eq_true find?_some map_cons mem_cons not_mem_nil)
open Option (all_some any_eq_true elim_some mem_def some_inj)

variable {other : String → List ℤ → ℤ} {signedp : Bool} {width : ℕ} {x y : ℤ}
variable {cuts : Bool} {resultType : Ctype} {count integer lvar : Lvar} {resultWidth : ℕ} {c y' : ℤ}
  {f : ℤ → ℤ → ℤ}

theorem ash_one_pred (n : ℕ) : ash 1 n - 1 = 2 ^ n - 1 := by rw [ash_ofNat, one_mul]

theorem ash_zero (x : ℤ) : ash x 0 = x := by rw [show ash x 0 = x / 2 ^ 0 from ash_neg x 0,
    pow_zero, Int.ediv_one]

theorem ldb_zero (size : ℕ) (x : ℤ) : ldb size 0 x = x % 2 ^ size := by
  unfold ldb
  rw [Nat.cast_zero, neg_zero, ash_zero]

theorem maskSignedField_eq (size : ℕ) (x : ℤ) : maskSignedField size x = cut true size x := by
  cases size with
  | zero => rfl
  | succ v =>
    refine IntBits.eq_of_testBit_eq fun i => ?_
    rw [testBit_cut_true]
    unfold maskSignedField
    rw [if_neg (Nat.succ_ne_zero v), Nat.add_sub_cancel]
    by_cases hv : x.testBit v
    · rw [if_pos hv]
      unfold dpb
      simp only [ash_one_pred, Nat.cast_zero, ash_zero, logior, logand, lognot, Int.testBit_lor,
        Int.testBit_land, Int.testBit_lnot, IntBits.testBit_neg_one,
        IntBits.testBit_pow_sub_one, Bool.true_and]
      rcases Nat.lt_or_ge i v with hi | hi
      · rw [min_eq_left hi.le, decide_eq_true hi, Bool.not_true, Bool.false_or, Bool.and_true]
      · rw [min_eq_right hi, decide_eq_false (not_lt.2 hi), Bool.not_false, Bool.true_or, hv]
    · rw [if_neg hv, ldb_zero, IntBits.testBit_emod]
      rcases Nat.lt_or_ge i v with hi | hi
      · rw [min_eq_left hi.le, decide_eq_true hi, Bool.true_and]
      · rw [min_eq_right hi, decide_eq_false (not_lt.2 hi), Bool.false_and, Bool.eq_false_iff.2 hv]

theorem cutValue_eq (signedp : Bool) (width : ℕ) (x : ℤ) :
    cutValue signedp width x = cut signedp width x := by
  cases signedp with
  | false => exact ldb_zero width x
  | true => exact maskSignedField_eq width x

/-! ## Types -/

variable {t : Ctype}

theorem csubtypep_sound {low high : Option ℤ} {n : ℤ} (h : csubtypep t low high = true)
    (hn : t.Mem n) : (∀ l ∈ low, l ≤ n) ∧ ∀ u ∈ high, n ≤ u := by
  obtain ⟨s, hs, hlow, hhigh⟩ := hn
  have hsub := all_eq_true.1 h s hs
  rw [and_eq_true] at hsub
  obtain ⟨hl, hu⟩ := hsub
  constructor
  · intro l hl'
    rw [mem_def] at hl'
    subst hl'
    rw [all_some, any_eq_true] at hl
    obtain ⟨k, hk, hle⟩ := hl
    exact (of_decide_eq_true hle).trans (hlow k hk)
  · intro u hu'
    rw [mem_def] at hu'
    subst hu'
    rw [all_some, any_eq_true] at hu
    obtain ⟨k, hk, hle⟩ := hu
    exact (hhigh k hk).trans (of_decide_eq_true hle)

theorem isCut_iff (signedp : Bool) (width : ℕ) (x : ℤ) :
    IsCut signedp width x ↔ widthLow signedp width ≤ x ∧ x ≤ widthHigh signedp width := by
  unfold widthLow widthHigh
  cases width with
  | zero =>
    rw [isCut_zero_iff, if_pos rfl, if_pos rfl]
    omega
  | succ v =>
    rw [if_neg (Nat.succ_ne_zero v), if_neg (Nat.succ_ne_zero v), Nat.add_sub_cancel]
    cases signedp with
    | false =>
      rw [isCut_false_iff, if_neg Bool.false_ne_true, if_neg Bool.false_ne_true]
      omega
    | true =>
      rw [isCut_true_iff, if_pos rfl, if_pos rfl]
      unfold IntBits.Fits
      omega

theorem fitsWidth_sound (h : fitsWidth signedp width t = true) (hx : t.Mem x) :
    IsCut signedp width x := by
  have hbounds := csubtypep_sound h hx
  exact (isCut_iff signedp width x).2 ⟨hbounds.1 _ rfl, hbounds.2 _ rfl⟩

theorem integerCtype_mem (n : ℤ) : integerCtype.Mem n :=
  ⟨_, List.mem_singleton_self _, (fun _ h => nomatch h), (fun _ h => nomatch h)⟩

theorem mem_eqlCtype (value : ℤ) : (eqlCtype value).Mem value :=
  mem_specifierInteger (fun _ hl => (some_inj.1 hl).ge) (fun _ hh => (some_inj.1 hh).le)

theorem eq_of_typeSingleton (h : typeSingleton t = some y) (hx : t.Mem x) : x = y := by
  obtain ⟨s, hs, hmem⟩ := hx
  match t, h with
  | [u], h =>
    rw [List.mem_singleton] at hs
    subst hs
    exact IntegerType.eq_of_singleton h hmem

theorem foldl_bounds_le {op : ℤ → ℤ → ℤ} {le : ℤ → ℤ → Prop}
    (htrans : ∀ {a b c}, le a b → le b c → le a c)
    (hrefl : ∀ a, le a a) (hleft : ∀ a b, le (op a b) a) (hright : ∀ a b, le (op a b) b)
    (bound : IntegerType → Option ℤ) (rest : List IntegerType) (first : Option ℤ) {l : ℤ}
    (h : rest.foldl (fun acc u => do return op (← acc) (← bound u)) first = some l) :
    (∃ b, first = some b ∧ le l b) ∧ ∀ u ∈ rest, ∃ b, bound u = some b ∧ le l b := by
  induction rest generalizing first with
  | nil => exact ⟨⟨l, h, hrefl l⟩, fun u hu => absurd hu not_mem_nil⟩
  | cons u rest ih =>
    obtain ⟨⟨b, hb, hle⟩, hrest⟩ := ih _ h
    obtain ⟨a, rfl, c, hc, hop⟩ : ∃ a, first = some a ∧ ∃ c, bound u = some c ∧ op a c = b := by
      cases first with
      | none => cases hb
      | some a =>
        dsimp only at hb
        cases hbound : bound u with
        | none =>
          rw [hbound] at hb
          cases hb
        | some c =>
          rw [hbound] at hb
          exact ⟨a, rfl, c, rfl, some_inj.1 hb⟩
    subst hop
    refine ⟨⟨a, rfl, htrans hle (hleft a c)⟩, fun v hv => ?_⟩
    rcases mem_cons.1 hv with rfl | hv
    · exact ⟨c, hc, htrans hle (hright a c)⟩
    · exact hrest v hv

variable {low : ℤ}

theorem low_le_of_mem (h : (integerTypeNumericBounds t).1 = some low) (hx : t.Mem x) : low ≤ x := by
  obtain ⟨s, hs, hmem⟩ := hx
  match t, h with
  | u :: rest, h =>
    obtain ⟨⟨l, hl, hll⟩, hlows⟩ :=
      @foldl_bounds_le min (· ≤ ·) le_trans le_refl min_le_left min_le_right
        IntegerType.low rest _ _ h
    rcases mem_cons.1 hs with rfl | hs
    · exact hll.trans (hmem.1 l hl)
    · obtain ⟨l', hl', hle⟩ := hlows s hs
      exact hle.trans (hmem.1 l' hl')

variable {high : ℤ}

theorem le_high_of_mem (h : (integerTypeNumericBounds t).2 = some high)
    (hx : t.Mem x) : x ≤ high := by
  obtain ⟨s, hs, hmem⟩ := hx
  match t, h with
  | u :: rest, h =>
    obtain ⟨⟨k, hk, hkk⟩, hhighs⟩ :=
      @foldl_bounds_le max (· ≥ ·) ge_trans (fun _ => le_rfl) le_max_left le_max_right
        IntegerType.high rest _ _ h
    rcases mem_cons.1 hs with rfl | hs
    · exact (hmem.2 k hk).trans hkk
    · obtain ⟨k', hk', hge⟩ := hhighs s hs
      exact (hmem.2 k' hk').trans hge

theorem integerTypeNumericBounds_sound
    (h : integerTypeNumericBounds t = (some low, some high)) (hx : t.Mem x) : low ≤ x ∧ x ≤ high :=
  ⟨low_le_of_mem (congrArg Prod.fst h) hx, le_high_of_mem (congrArg Prod.snd h) hx⟩

/-! ## Expressions with sound types -/

section Sound

variable (other : String → List ℤ → ℤ) (env : Env)

mutual

/-- The value of every node that is reached is in its derived type. -/
def Lvar.Sound : Lvar → Prop
  | .use node => node.Sound
  | .uses branch first rest => if env.branch branch then first.Sound else rest.Sound

def Node.Sound : Node → Prop
  | .ref leaf type => type.Mem (env.leaf leaf)
  | .constant _ => True
  | .combination _ name args type => args.Sound ∧ type.Mem (name.eval other (args.eval other env))
  | .cast _ _ value type => value.Sound ∧ type.Mem (value.eval other env)

def Args.Sound : Args → Prop
  | .nil => True
  | .cons arg rest => arg.Sound ∧ rest.Sound

end

end Sound

variable {env : Env}

theorem Node.Sound.mem {node : Node} (h : node.Sound other env) :
    node.type.Mem (node.eval other env) := by
  cases node with
  | ref leaf type =>
    rw [Node.Sound] at h
    rw [Node.eval]
    exact h
  | constant value =>
    rw [Node.eval]
    exact mem_eqlCtype value
  | combination kind name args type =>
    rw [Node.Sound] at h
    rw [Node.eval]
    exact h.2
  | cast integerp almostImmediatelyUsed value type =>
    rw [Node.Sound] at h
    rw [Node.eval]
    exact h.2

theorem Lvar.Sound.mem {lvar : Lvar} (h : lvar.Sound other env) :
    lvar.type.Mem (lvar.eval other env) := by
  match lvar with
  | .use node =>
    rw [Lvar.Sound] at h
    rw [Lvar.eval, Lvar.type]
    exact h.mem
  | .uses branch first rest =>
    rw [Lvar.Sound] at h
    rw [Lvar.eval, Lvar.type]
    by_cases hb : env.branch branch = true
    · rw [if_pos hb] at h ⊢
      exact h.mem.append_left _
    · rw [if_neg hb] at h ⊢
      exact h.mem.append_right _

mutual

theorem Lvar.eval_of_principalConstant {lvar : Lvar} (h : lvar.principalConstant = some x) :
    lvar.eval other env = x := by
  match lvar with
  | .use node =>
    rw [Lvar.principalConstant] at h
    rw [Lvar.eval]
    exact Node.eval_of_principalConstant h
  | .uses _ _ _ =>
    rw [Lvar.principalConstant] at h
    cases h

theorem Node.eval_of_principalConstant {node : Node} (h : node.principalConstant = some x) :
    node.eval other env = x := by
  match node with
  | .ref _ _ | .combination _ _ _ _ =>
    rw [Node.principalConstant] at h
    · cases h
    · exact fun _ h => nomatch h
    · exact fun _ _ _ _ h => nomatch h
  | .constant value =>
    rw [Node.principalConstant] at h
    rw [Node.eval]
    exact some_inj.1 h
  | .cast _ _ value _ =>
    rw [Node.principalConstant] at h
    rw [Node.eval]
    exact Lvar.eval_of_principalConstant h

end

theorem eval_of_constantLvar {lvar : Lvar} (hs : lvar.Sound other env)
    (h : constantLvar lvar = some x) : lvar.eval other env = x := by
  unfold constantLvar at h
  cases hp : lvar.principalConstant with
  | some value =>
    rw [hp] at h
    dsimp only at h
    split_ifs at h
    rw [← some_inj.1 h]
    exact Lvar.eval_of_principalConstant hp
  | none =>
    rw [hp] at h
    exact eq_of_typeSingleton h hs.mem

/-! ## Registered functions -/

/-- The values are congruent, one by one. -/
abbrev ModEqs (m : ℕ) : List ℤ → List ℤ → Prop := List.Forall₂ fun x y => x ≡ y [ZMOD 2 ^ m]

/-- Good functions commute with truncation; the prototype of a modular version is computed from
arguments modulo its width. -/
structure Registry.WellFormed (other : String → List ℤ → ℤ) (registry : Registry) : Prop where
  good : ∀ kind signedp name, (kind = .tagged → signedp = true) →
    (findModularClass registry kind signedp).funs name = .good → ∀ w args,
    (signedp = true → 0 < w) →
    cutValue signedp w (name.eval other args) = name.eval other (args.map (cutValue signedp w))
  infos : ∀ kind signedp name infos, (kind = .tagged → signedp = true) →
    (findModularClass registry kind signedp).funs name = .infos infos → ∀ mfi ∈ infos,
    ∀ m ≤ mfi.width, ∀ args args',
    ModEqs m args' args → name.eval other args' ≡ name.eval other args [ZMOD 2 ^ m]
  ash : ∀ kind signedp name, (kind = .tagged → signedp = true) →
    (findModularClass registry kind signedp).funs name = .ashOptimizer → name = .ash
  tagged : ∀ w ∈ registry.tagged.widths, w.2 = true

variable {m : ℕ} {args args' : List ℤ}

theorem map_cut_congr (h : ModEqs m args' args) :
    args'.map (cutValue signedp m) = args.map (cutValue signedp m) := by
  induction h with
  | nil => rfl
  | cons hx _ ih => rw [map_cons, map_cons, ih, cutValue_eq, cutValue_eq, cut_congr hx]

variable {name : Fun}

theorem modEq_of_good
    (h : ∀ w args, (signedp = true → 0 < w) →
      cutValue signedp w (name.eval other args) = name.eval other (args.map (cutValue signedp w)))
    (hargs : ModEqs m args' args) : name.eval other args' ≡ name.eval other args [ZMOD 2 ^ m] := by
  rcases Nat.eq_zero_or_pos m with rfl | hm
  · rw [pow_zero]
    exact Int.modEq_one
  have heq : cutValue signedp m (name.eval other args') =
      cutValue signedp m (name.eval other args) := by
    rw [h m _ fun _ => hm, h m _ fun _ => hm, map_cut_congr hargs]
  rw [cutValue_eq, cutValue_eq] at heq
  exact (cut_modEq signedp m _).symm.trans (heq ▸ cut_modEq signedp m _)

theorem isCut_of_good (hw : signedp = true → 0 < width)
    (h : ∀ w args, (signedp = true → 0 < w) →
      cutValue signedp w (name.eval other args) = name.eval other (args.map (cutValue signedp w)))
    (hargs : ∀ x ∈ args, IsCut signedp width x) : IsCut signedp width (name.eval other args) := by
  have hmap : args.map (cutValue signedp width) = args := by
    conv_rhs => rw [← List.map_id args]
    exact List.map_congr_left fun x hx => (cutValue_eq signedp width x).trans (hargs x hx)
  have heq := h width args hw
  rw [hmap, cutValue_eq] at heq
  exact heq

variable {kind : ModularKind}

theorem findModularVersion_cases {registry : Registry} {version : ModularVersion}
    (h : findModularVersion registry name kind signedp width = some version) :
    (version = .good ∧ (findModularClass registry kind signedp).funs name = .good) ∨
      (∃ infos mfi, version = .info mfi ∧
        (findModularClass registry kind signedp).funs name = .infos infos ∧
        mfi ∈ infos ∧ width ≤ mfi.width) ∨
      (version = .ashOptimizer ∧ (findModularClass registry kind signedp).funs name =
        .ashOptimizer) := by
  unfold findModularVersion at h
  cases hfun : (findModularClass registry kind signedp).funs name with
  | good =>
    rw [hfun] at h
    exact .inl ⟨(some_inj.1 h).symm, rfl⟩
  | infos infos =>
    rw [hfun] at h
    obtain ⟨mfi, hfind, rfl⟩ := Option.map_eq_some_iff.1 h
    have hle := find?_some hfind
    exact .inr (.inl ⟨infos, mfi, rfl, rfl, List.mem_of_find?_eq_some hfind, of_decide_eq_true hle⟩)
  | ashOptimizer =>
    rw [hfun] at h
    exact .inr (.inr ⟨(some_inj.1 h).symm, rfl⟩)

/-! ## The low bits -/

section Cut

variable (registry : Registry) (kind : ModularKind) (signedp : Bool) (width : ℕ)

/-- The optimizer of `ash` cuts the integer for a shift that may be to the right. -/
def reusesAsh (resultWidth : ℕ) (integer count : Lvar) : Bool :=
  match cutAsh signedp width resultWidth integer count with
  | some (.ashMod _, true) => !csubtypep count.type (some 0) none
  | _ => false

def reusesAshArgs (resultWidth : ℕ) : Args → Bool
  | .cons integer (.cons count .nil) => reusesAsh signedp width resultWidth integer count
  | _ => false

mutual

/-- In cutting the lvar, a shift that may be to the right reuses the bits above the result width. -/
def reusesLvar (resultWidth : ℕ) : Lvar → Bool
  | .use node => reusesNode resultWidth node
  | .uses _ first rest => reusesLvar resultWidth first || reusesLvar resultWidth rest

def reusesNode (resultWidth : ℕ) : Node → Bool
  | .ref _ _ | .constant _ | .combination .full _ _ _ => false
  | .combination .known name args type =>
    match findModularVersion registry name kind signedp width with
    | none => false
    | some version =>
      !nothingToDo name signedp width type &&
        match version with
        | .good | .info _ => reusesArgs resultWidth args
        | .ashOptimizer => reusesAshArgs signedp width resultWidth args
  | .cast integerp almostImmediatelyUsed value _ =>
    integerp && (almostImmediatelyUsed && reusesCastUses resultWidth value)

def reusesArgs (resultWidth : ℕ) : Args → Bool
  | .nil => false
  | .cons arg rest => reusesLvar resultWidth arg || reusesArgs resultWidth rest

def reusesCastUses (resultWidth : ℕ) : Lvar → Bool
  | .use (.combination kind' name args type) =>
    castCombination name args && reusesNode resultWidth (.combination kind' name args type)
  | .use _ => false
  | .uses _ first rest => reusesCastUses resultWidth first || reusesCastUses resultWidth rest

end

end Cut

theorem ash_modEq_left (hc : 0 ≤ c) (h : x ≡ y [ZMOD 2 ^ m]) : ash x c ≡ ash y c [ZMOD 2 ^ m] := by
  obtain ⟨n, rfl⟩ := Int.eq_ofNat_of_zero_le hc
  rw [ash_ofNat, ash_ofNat]
  exact h.mul_right _

variable {w : ℕ}

theorem ash_modEq_right (hc : (m : ℤ) - w ≤ c) (hm : m ≤ w) (h : x ≡ y [ZMOD 2 ^ w]) :
    ash x c ≡ ash y c [ZMOD 2 ^ m] := by
  rcases Int.le_total 0 c with hpos | hneg
  · exact ash_modEq_left hpos (modEq_mono h hm)
  obtain ⟨n, hn⟩ := Int.eq_ofNat_of_zero_le (Int.neg_nonneg_of_nonpos hneg)
  obtain rfl : c = -n := by omega
  rw [ash_neg, ash_neg]
  exact ediv_modEq (modEq_mono h (by omega))

theorem eval_lvarCut (signedp : Bool) (width : ℕ) (lvar : Lvar) :
    (lvarCut signedp width lvar).eval other env = cut signedp width (lvar.eval other env) := by
  cases signedp with
  | false =>
    simp only [lvarCut, false_eq_true, if_false, Lvar.eval, Node.eval, Args.eval, Fun.eval]
    refine IntBits.eq_of_testBit_eq fun i => ?_
    rw [testBit_cut_false]
    simp only [logand, Int.testBit_land, IntBits.testBit_pow_sub_one]
    exact Bool.and_comm _ _
  | true =>
    simp only [lvarCut, if_true, Lvar.eval, Node.eval, Args.eval, Fun.eval, Int.toNat_natCast]
    exact maskSignedField_eq _ _

theorem insertLvarCut_modEq (dest : Dest) (head : Bool) (cut : CutUses) :
    (insertLvarCut signedp width dest head cut).lvar.eval other env ≡
      cut.lvar.eval other env [ZMOD 2 ^ width] := by
  unfold insertLvarCut
  split_ifs
  · rfl
  · dsimp only
    rw [eval_lvarCut]
    exact cut_modEq signedp width _
  · rfl

theorem cutAsh_cases
    (h : cutAsh signedp width resultWidth integer count = some (name, cuts)) :
    width ≤ ashWidth signedp ∧
      ((name = .ashLeftMod signedp ∧ cuts = true ∧
          ((∃ c, constantLvar count = some c ∧ 0 < c) ∨
            fitsWidth false nWordBits count.type = true)) ∨
        ((name = .ashMod signedp ∨ name = .ashIntoWordMod signedp) ∧ cuts = false) ∨
        (name = .ashMod signedp ∧ cuts = true ∧
          csubtypep count.type (some (resultWidth - width))
            (some (2 ^ (nFixnumBits - 1) - 1)) = true)) := by
  unfold cutAsh at h
  split_ifs at h with hw hleft hunknown hword hreuse hinto
  · obtain ⟨rfl, rfl⟩ := Prod.mk.inj (some_inj.1 h)
    refine ⟨hw, .inl ⟨rfl, rfl, ?_⟩⟩
    rw [or_eq_true, any_eq_true] at hleft
    exact hleft.imp (fun ⟨c, hc, hpos⟩ => ⟨c, hc, of_decide_eq_true hpos⟩) id
  · obtain ⟨rfl, rfl⟩ := Prod.mk.inj (some_inj.1 h)
    exact ⟨hw, .inr (.inl ⟨.inl rfl, rfl⟩)⟩
  · obtain ⟨rfl, rfl⟩ := Prod.mk.inj (some_inj.1 h)
    exact ⟨hw, .inr (.inr ⟨rfl, rfl, hreuse⟩)⟩
  · obtain ⟨rfl, rfl⟩ := Prod.mk.inj (some_inj.1 h)
    exact ⟨hw, .inr (.inl ⟨.inr rfl, rfl⟩)⟩

theorem cutAsh_modEq (hm : m ≤ width)
    (hcount : count.Sound other env)
    (h : cutAsh signedp width resultWidth integer count = some (name, cuts))
    (hreuse : m ≤ resultWidth ∨ reusesAsh signedp width resultWidth integer count = false)
    (hx : x ≡ y [ZMOD 2 ^ width]) (heq : cuts = false → x = y) :
    name.eval other [x, count.eval other env] ≡ ash y (count.eval other env) [ZMOD 2 ^ m] := by
  obtain ⟨hw, hcases⟩ := cutAsh_cases h
  have hversion (hz : ash x (count.eval other env) ≡ ash y (count.eval other env) [ZMOD 2 ^ m]) :
      cutValue signedp (ashWidth signedp) (ash x (count.eval other env)) ≡
        ash y (count.eval other env) [ZMOD 2 ^ m] := by
    rw [cutValue_eq]
    exact (modEq_mono (cut_modEq signedp _ _) (hm.trans hw)).trans hz
  rcases hcases with ⟨rfl, -, hpos⟩ | ⟨hname, hcuts⟩ | ⟨rfl, rfl, hrange⟩
  · have hnonneg : 0 ≤ count.eval other env := by
      rcases hpos with ⟨c, hc, hpos⟩ | hword
      · rw [eval_of_constantLvar hcount hc]
        exact hpos.le
      · exact (isCut_false_iff.1 (fitsWidth_sound hword hcount.mem)).1
    exact hversion (ash_modEq_left hnonneg (modEq_mono hx hm))
  · rw [heq hcuts] at hversion ⊢
    rcases hname with rfl | rfl
    · exact hversion rfl
    · exact hversion rfl
  · apply hversion
    rcases hreuse with hreuse | hreuse
    · have hle := (csubtypep_sound hrange hcount.mem).1 _ rfl
      exact ash_modEq_right (by omega) hm hx
    have hnonneg : csubtypep count.type (some 0) none = true := by
      unfold reusesAsh at hreuse
      rw [h] at hreuse
      exact (Bool.not_eq_false' _).mp hreuse
    exact ash_modEq_left ((csubtypep_sound hnonneg hcount.mem).1 0 rfl) (modEq_mono hx hm)

section Cut

-- The hypotheses are used in the recursive calls.
set_option linter.unusedSectionVars false

variable {registry : Registry} {kind : ModularKind} (hreg : registry.WellFormed other)
  (hkind : kind = .tagged → signedp = true)
include hreg hkind

mutual

theorem cutUses_modEq {m resultWidth : ℕ} (hm : m ≤ width) (lvar : Lvar) (hs : lvar.Sound other env)
    (hreuse : m ≤ resultWidth ∨ reusesLvar registry kind signedp width resultWidth lvar = false) :
    (cutUses registry kind signedp width resultWidth lvar).lvar.eval other env ≡
      lvar.eval other env [ZMOD 2 ^ m] := by
  match lvar with
  | .use node =>
    rw [reusesLvar] at hreuse
    rw [Lvar.Sound] at hs
    rw [cutUses, Lvar.eval, Lvar.eval]
    exact cutNode_modEq hm node hs hreuse
  | .uses branch first rest =>
    rw [reusesLvar, or_eq_false_iff] at hreuse
    rw [Lvar.Sound] at hs
    rw [cutUses, Lvar.eval, Lvar.eval]
    by_cases hb : env.branch branch = true
    · rw [if_pos hb] at hs ⊢
      rw [if_pos hb]
      exact cutUses_modEq hm first hs (hreuse.imp_right And.left)
    · rw [if_neg hb] at hs ⊢
      rw [if_neg hb]
      exact cutUses_modEq hm rest hs (hreuse.imp_right And.right)

theorem cutNode_modEq {m resultWidth : ℕ} (hm : m ≤ width) (node : Node) (hs : node.Sound other env)
    (hreuse : m ≤ resultWidth ∨ reusesNode registry kind signedp width resultWidth node = false) :
    (cutNode registry kind signedp width resultWidth node).node.eval other env ≡
      node.eval other env [ZMOD 2 ^ m] := by
  match node with
  | .ref leaf type =>
    rw [cutNode]
  | .constant value =>
    rw [cutNode, Node.eval, Node.eval, cutValue_eq]
    exact modEq_mono (cut_modEq signedp width value) hm
  | .combination .full name args type =>
    rw [cutNode]
  | .combination .known name args type =>
    rw [Node.Sound] at hs
    rw [cutNode]
    rw [reusesNode] at hreuse
    cases hversion : findModularVersion registry name kind signedp width with
    | none => rfl
    | some version =>
      rw [hversion] at hreuse
      dsimp only at hreuse ⊢
      by_cases hnothing : nothingToDo name signedp width type = true
      · rw [if_pos hnothing]
      rw [if_neg hnothing]
      rw [not_eq_true] at hnothing
      rw [hnothing, Bool.not_false, Bool.true_and] at hreuse
      rcases findModularVersion_cases hversion with ⟨rfl, hgood⟩ | ⟨infos, mfi, rfl, hinfos, hmfi,
        hle⟩ | ⟨rfl, hash⟩
      · dsimp only at hreuse ⊢
        rw [Node.eval, Node.eval]
        exact modEq_of_good (hreg.good kind signedp name hkind hgood)
          (cutArgs_modEq hm args _ hs.1 hreuse)
      · dsimp only at hreuse ⊢
        rw [Node.eval, Node.eval, Fun.eval, cutValue_eq]
        exact (modEq_mono (cut_modEq _ _ _) (hm.trans hle)).trans
          (hreg.infos kind signedp name infos hkind hinfos mfi hmfi m (hm.trans hle) _ _
            (cutArgs_modEq hm args _ hs.1 hreuse))
      · obtain rfl := hreg.ash kind signedp name hkind hash
        exact cutAshArgs_modEq hm args type hs.1 hreuse
  | .cast integerp almostImmediatelyUsed value type =>
    rw [reusesNode] at hreuse
    rw [Node.Sound] at hs
    rw [cutNode]
    cases integerp with
    | false => rfl
    | true =>
      rw [if_pos rfl, Node.eval, Node.eval]
      exact cutCastUses_modEq hm almostImmediatelyUsed value hs.1 hreuse

theorem cutAshArgs_modEq {m resultWidth : ℕ} (hm : m ≤ width) (args : Args) (type : Ctype)
    (hs : args.Sound other env)
    (hreuse : m ≤ resultWidth ∨ reusesAshArgs signedp width resultWidth args = false) :
    (cutAshArgs registry kind signedp width .ash type resultWidth args).node.eval other env ≡
      Fun.ash.eval other (args.eval other env) [ZMOD 2 ^ m] := by
  match args with
  | .nil | .cons _ .nil | .cons _ (.cons _ (.cons _ _)) =>
    rw [cutAshArgs, Node.eval]
    exact fun _ _ h => nomatch h
  | .cons integer (.cons count .nil) =>
    simp only [Args.Sound] at hs
    rw [cutAshArgs]
    cases hcut : cutAsh signedp width resultWidth integer count with
    | none => rfl
    | some result =>
      obtain ⟨version, cuts⟩ := result
      simp only [Node.eval, Args.eval]
      have hinteger : (if cuts then (insertLvarCut signedp width .other true
          (cutUses registry kind signedp width width integer)).lvar else integer).eval other env ≡
          integer.eval other env [ZMOD 2 ^ width] := by
        cases cuts with
        | false => rfl
        | true =>
          rw [if_pos rfl]
          exact (insertLvarCut_modEq _ _ _).trans (cutUses_modEq le_rfl integer hs.1 (.inl le_rfl))
      refine cutAsh_modEq hm hs.2.1 hcut hreuse hinteger fun h => ?_
      rw [h, if_neg Bool.false_ne_true]

theorem cutArgs_modEq {m resultWidth : ℕ} (hm : m ≤ width) (args : Args) (dests : List Dest)
    (hs : args.Sound other env)
    (hreuse : m ≤ resultWidth ∨ reusesArgs registry kind signedp width resultWidth args = false) :
    ModEqs m ((cutArgs registry kind signedp width resultWidth dests args).args.eval other env)
      (args.eval other env) := by
  match args with
  | .nil =>
    rw [cutArgs, Args.eval]
    exact .nil
  | .cons arg rest =>
    rw [reusesArgs, or_eq_false_iff] at hreuse
    rw [Args.Sound] at hs
    rw [cutArgs, Args.eval, Args.eval]
    exact .cons
      ((modEq_mono (insertLvarCut_modEq _ _ _) hm).trans
        (cutUses_modEq hm arg hs.1 (hreuse.imp_right And.left)))
      (cutArgs_modEq hm rest dests.tail hs.2 (hreuse.imp_right And.right))

theorem cutCastUses_modEq {m resultWidth : ℕ} (hm : m ≤ width)
    (almostImmediatelyUsed : Bool) (lvar : Lvar)
    (hs : lvar.Sound other env) (hreuse : m ≤ resultWidth ∨
      (true && (almostImmediatelyUsed &&
        reusesCastUses registry kind signedp width resultWidth lvar)) = false) :
    (cutCastUses registry kind signedp width almostImmediatelyUsed resultWidth lvar).1.eval
      other env ≡ lvar.eval other env [ZMOD 2 ^ m] := by
  match lvar with
  | .use (.combination kind' name args type) =>
    rw [reusesCastUses] at hreuse
    rw [Lvar.Sound] at hs
    rw [cutCastUses]
    split_ifs with hmatch
    · rw [Lvar.eval, Lvar.eval]
      rw [and_eq_true] at hmatch
      rw [hmatch.1, hmatch.2, Bool.true_and, Bool.true_and, Bool.true_and] at hreuse
      exact cutNode_modEq hm _ hs hreuse
    · rfl
  | .use (.ref _ _) | .use (.constant _) | .use (.cast _ _ _ _) =>
    rw [cutCastUses]
    exact fun _ _ _ _ h => nomatch h
  | .uses branch first rest =>
    rw [reusesCastUses] at hreuse
    rw [Lvar.Sound] at hs
    rw [cutCastUses, Lvar.eval, Lvar.eval]
    have hfirst : m ≤ resultWidth ∨ (true && (almostImmediatelyUsed &&
        reusesCastUses registry kind signedp width resultWidth first)) = false := by
      refine hreuse.imp_right fun h => ?_
      cases almostImmediatelyUsed <;> simp_all
    have hrest : m ≤ resultWidth ∨ (true && (almostImmediatelyUsed &&
        reusesCastUses registry kind signedp width resultWidth rest)) = false := by
      refine hreuse.imp_right fun h => ?_
      cases almostImmediatelyUsed <;> simp_all
    by_cases hb : env.branch branch = true
    · rw [if_pos hb] at hs ⊢
      rw [if_pos hb]
      exact cutCastUses_modEq hm almostImmediatelyUsed first hs hfirst
    · rw [if_neg hb] at hs ⊢
      rw [if_neg hb]
      exact cutCastUses_modEq hm almostImmediatelyUsed rest hs hrest

end

/-! ## The width -/

omit hreg hkind in
theorem cutAshArgs_cases (name : Fun) (type : Ctype) (resultWidth : ℕ) (args : Args) :
    ((cutAshArgs registry kind signedp width name type resultWidth args).handled = false ∧
        (cutAshArgs registry kind signedp width name type resultWidth args).node =
          .combination .known name args type) ∨
      ((cutAshArgs registry kind signedp width name type resultWidth args).handled = true ∧
        (cutAshArgs registry kind signedp width name type resultWidth args).wide = true) := by
  match args with
  | .nil | .cons _ .nil | .cons _ (.cons _ (.cons _ _)) =>
    rw [cutAshArgs]
    · exact .inl ⟨rfl, rfl⟩
    · exact fun _ _ h => nomatch h
  | .cons integer (.cons count .nil) =>
    rw [cutAshArgs]
    cases cutAsh signedp width resultWidth integer count with
    | none => exact .inl ⟨rfl, rfl⟩
    | some result => exact .inr ⟨rfl, rfl⟩

omit hreg hkind in
theorem cutNode_combination_unhandled (resultWidth : ℕ) (kind' : CombinationKind) (name : Fun)
    (args : Args) (type : Ctype)
    (h : (cutNode registry kind signedp width resultWidth
      (.combination kind' name args type)).handled = false) :
    (cutNode registry kind signedp width resultWidth (.combination kind' name args type)).node =
      .combination kind' name args type := by
  cases kind' with
  | full => rw [cutNode]
  | known =>
    rw [cutNode] at h ⊢
    cases hversion : findModularVersion registry name kind signedp width with
    | none => rfl
    | some version =>
      rw [hversion] at h
      dsimp only at h ⊢
      by_cases hnothing : nothingToDo name signedp width type = true
      · rw [if_pos hnothing]
      rw [if_neg hnothing] at h ⊢
      cases version with
      | good => cases h
      | info mfi => cases h
      | ashOptimizer =>
        rcases cutAshArgs_cases name type resultWidth args with hcase | hcase
        · exact hcase.2
        · exact absurd (hcase.1.symm.trans h) (by decide)

omit hreg hkind in
theorem cutCastUses_unchanged (almostImmediatelyUsed : Bool) (resultWidth : ℕ) (lvar : Lvar)
    (h : (cutCastUses registry kind signedp width almostImmediatelyUsed resultWidth lvar).2 =
      false) :
    (cutCastUses registry kind signedp width almostImmediatelyUsed resultWidth lvar).1 = lvar := by
  match lvar with
  | .use (.combination kind' name args type) =>
    rw [cutCastUses] at h ⊢
    split_ifs at h ⊢ with hmatch
    · exact congrArg Lvar.use (cutNode_combination_unhandled resultWidth kind' name args type h)
    · rfl
  | .use (.ref _ _) | .use (.constant _) | .use (.cast _ _ _ _) =>
    rw [cutCastUses]
    exact fun _ _ _ _ h => nomatch h
  | .uses branch first rest =>
    rw [cutCastUses] at h ⊢
    obtain ⟨hfirst, hrest⟩ := (or_eq_false_iff).1 h
    rw [cutCastUses_unchanged almostImmediatelyUsed resultWidth first hfirst,
      cutCastUses_unchanged almostImmediatelyUsed resultWidth rest hrest]

omit hreg hkind in
theorem cutNode_unhandled (resultWidth : ℕ) (node : Node)
    (h : (cutNode registry kind signedp width resultWidth node).handled = false) :
    (cutNode registry kind signedp width resultWidth node).node = node ∨
      (cutNode registry kind signedp width resultWidth node).node.type = integerCtype := by
  match node with
  | .ref _ _ =>
    rw [cutNode]
    exact .inl rfl
  | .constant _ =>
    rw [cutNode] at h
    cases h
  | .combination kind' name args type =>
    exact .inl (cutNode_combination_unhandled resultWidth kind' name args type h)
  | .cast integerp almostImmediatelyUsed value type =>
    rw [cutNode]
    cases integerp with
    | false => exact .inl rfl
    | true =>
      rw [if_pos rfl]
      cases hcut :
        (cutCastUses registry kind signedp width almostImmediatelyUsed resultWidth value).2 with
      | false =>
        left
        dsimp only
        rw [hcut, cutCastUses_unchanged almostImmediatelyUsed resultWidth value hcut,
          if_neg Bool.false_ne_true]
      | true =>
        right
        dsimp only
        rw [hcut, if_pos rfl, Node.type]

/-- The values of arguments are of the width, except where the destination cuts them. -/
def CutAll (signedp : Bool) (width : ℕ) : List Dest → List ℤ → Prop
  | _, [] => True
  | dests, x :: args =>
    (IsCut signedp width x ∨ (dests.headD .other).cuts signedp width = true) ∧
      CutAll signedp width dests.tail args

omit hreg hkind in
theorem CutAll.isCut {args : List ℤ} (h : CutAll signedp width [] args) : ∀ x ∈ args,
    IsCut signedp width x := by
  induction args with
  | nil => exact fun x hx => absurd hx not_mem_nil
  | cons y args ih =>
    intro x hx
    rcases mem_cons.1 hx with rfl | hx
    · exact h.1.resolve_right Bool.false_ne_true
    · exact ih h.2 x hx

omit hreg hkind in
theorem insertLvarCut_isCut {dest : Dest} {head : Bool} {cut : CutUses}
    (hcut : cut.mustInsert = false → cut.overWide = false →
      IsCut signedp width (cut.lvar.eval other env))
    (hwide : (insertLvarCut signedp width dest head cut).overWide = false) :
    IsCut signedp width ((insertLvarCut signedp width dest head cut).lvar.eval other env) ∨
      dest.cuts signedp width = true := by
  unfold insertLvarCut at hwide ⊢
  split_ifs at hwide ⊢ with hinsert hdest
  · exact .inr hdest
  · left
    rw [eval_lvarCut]
    exact isCut_cut signedp width _
  · rw [or_eq_true, not_or, not_eq_true] at hinsert
    exact .inl (hcut hinsert.1 hwide)

omit hreg hkind in
theorem isCut_logand_constant (h0 : 0 ≤ c) (hc : IsCut signedp width c) :
    IsCut signedp width (logand x c) := by
  rw [isCut_iff] at hc ⊢
  have hnonneg : 0 ≤ logand x c := by
    by_contra hneg
    exact absurd ((IntBits.land_neg_iff x c).1 (not_le.1 hneg)).2 (not_lt.2 h0)
  have hle : logand x c ≤ c := IntBits.land_le_right (.inl h0)
  have hlow : widthLow signedp width ≤ 0 := by
    unfold widthLow
    split_ifs
    · exact le_rfl
    · exact neg_nonpos.2 (by positivity)
    · exact le_rfl
  exact ⟨hlow.trans hnonneg, hle.trans hc.2⟩

omit hreg hkind in
theorem not_good_maskSignedField (h : ∀ w args, (signedp = true → 0 < w) →
    cutValue signedp w (Fun.maskSignedField.eval other args) =
      Fun.maskSignedField.eval other (args.map (cutValue signedp w))) : False := by
  have h41 : cutValue signedp 2 (maskSignedField 4 1) =
      maskSignedField (cutValue signedp 2 4).toNat (cutValue signedp 2 1) :=
        h 2 [4, 1] fun _ => by decide
  revert h41
  cases signedp with
  | _ => decide

omit hreg hkind in
theorem argDests_cases (name : Fun) (args : Args) :
    argDests name args = [] ∨ name = .maskSignedField ∨
      ∃ a b, name = .logand ∧ args = .cons a (.cons b .nil) ∧
        argDests name args = [(constantLvar b).elim .other .logand, .other] := by
  unfold argDests
  split
  · rename_i first b h
    match args, h with
    | .cons a (.cons c .nil), h =>
      simp only [Args.toList, List.cons.injEq, and_true] at h
      obtain ⟨rfl, rfl⟩ := h
      exact .inr (.inr ⟨_, _, rfl, rfl, rfl⟩)
  · exact .inr (.inl rfl)
  · exact .inl rfl

omit hreg hkind in
theorem isCut_logand_of_cuts {y : Lvar} (hy : y.Sound other env)
    (hcuts : ((constantLvar y).elim .other .logand : Dest).cuts signedp width = true)
    (hy' : IsCut signedp width y')
    (hmod : y' ≡ y.eval other env [ZMOD 2 ^ width]) : IsCut signedp width (logand x y') := by
  cases hc : constantLvar y with
  | none =>
    rw [hc] at hcuts
    cases hcuts
  | some c =>
    rw [hc, elim_some, Dest.cuts, and_eq_true, decide_eq_true_eq] at hcuts
    have hccut : IsCut signedp width c := fitsWidth_sound hcuts.2 (mem_eqlCtype c)
    rw [eval_of_constantLvar hy hc] at hmod
    rw [hy'.eq_of_modEq hccut hmod]
    exact isCut_logand_constant hcuts.1 hccut

theorem isCut_good (hw : signedp = true → 0 < width) {name : Fun}
    (hgood : (findModularClass registry kind signedp).funs name = .good) (args : Args)
    {args' : List ℤ} (hs : args.Sound other env) (hmod : ModEqs width args' (args.eval other env))
    (hall : CutAll signedp width (argDests name args) args') :
    IsCut signedp width (name.eval other args') := by
  have hcommutes := hreg.good kind signedp name hkind hgood
  rcases argDests_cases name args with hdests | rfl | ⟨a, b, rfl, rfl, hdests⟩
  · rw [hdests] at hall
    exact isCut_of_good hw hcommutes hall.isCut
  · exact (not_good_maskSignedField hcommutes).elim
  rw [hdests] at hall
  simp only [Args.eval] at hmod
  simp only [Args.Sound] at hs
  obtain ⟨x', rest, -, hrest, rfl⟩ := List.forall₂_cons_right_iff.1 hmod
  obtain ⟨y', rest, hy, hnil, rfl⟩ := List.forall₂_cons_right_iff.1 hrest
  obtain rfl := List.forall₂_nil_right_iff.1 hnil
  obtain ⟨hx', hy', -⟩ := hall
  have hy' := hy'.resolve_right Bool.false_ne_true
  rcases hx' with hx' | hcuts
  · refine isCut_of_good hw hcommutes fun z hz => ?_
    rcases mem_cons.1 hz with rfl | hz
    · exact hx'
    · rw [List.mem_singleton.1 hz]
      exact hy'
  -- The first argument is not cut, since the second is a constant that cuts it.
  · exact isCut_logand_of_cuts hs.2.1 hcuts hy' hy

mutual

theorem cutUses_isCut (hw : signedp = true → 0 < width) (lvar : Lvar) (hs : lvar.Sound other env)
    (hreuse : reusesLvar registry kind signedp width resultWidth lvar = false)
    (hinsert : (cutUses registry kind signedp width resultWidth lvar).mustInsert = false)
    (hwide : (cutUses registry kind signedp width resultWidth lvar).overWide = false) :
    IsCut signedp width
      ((cutUses registry kind signedp width resultWidth lvar).lvar.eval other env) := by
  match lvar with
  | .use node =>
    rw [reusesLvar] at hreuse
    rw [Lvar.Sound] at hs
    rw [cutUses] at hinsert hwide ⊢
    rw [Lvar.eval]
    cases hhandled : (cutNode registry kind signedp width resultWidth node).handled with
    | true => exact cutNode_isCut hw node hs hreuse hhandled hwide
    | false =>
      rw [hhandled, Bool.false_or] at hinsert
      have hfits := (Bool.not_eq_false' _).mp hinsert
      rcases cutNode_unhandled resultWidth node hhandled with heq | htype
      · rw [heq] at hfits ⊢
        exact fitsWidth_sound hfits hs.mem
      · rw [htype] at hfits
        cases hfits
  | .uses branch first rest =>
    rw [reusesLvar, or_eq_false_iff] at hreuse
    rw [Lvar.Sound] at hs
    rw [cutUses] at hinsert hwide ⊢
    rw [Lvar.eval]
    obtain ⟨hinsert, hinsert'⟩ := or_eq_false_iff.1 hinsert
    obtain ⟨hwide, hwide'⟩ := or_eq_false_iff.1 hwide
    by_cases hb : env.branch branch = true
    · rw [if_pos hb] at hs ⊢
      exact cutUses_isCut hw first hs hreuse.1 hinsert hwide
    · rw [if_neg hb] at hs ⊢
      exact cutUses_isCut hw rest hs hreuse.2 hinsert' hwide'

theorem cutNode_isCut (hw : signedp = true → 0 < width) (node : Node) (hs : node.Sound other env)
    (hreuse : reusesNode registry kind signedp width resultWidth node = false)
    (hhandled : (cutNode registry kind signedp width resultWidth node).handled = true)
    (hwide : (cutNode registry kind signedp width resultWidth node).wide = false) :
    IsCut signedp width
      ((cutNode registry kind signedp width resultWidth node).node.eval other env) := by
  match node with
  | .ref leaf type =>
    rw [cutNode] at hhandled
    cases hhandled
  | .constant value =>
    rw [cutNode, Node.eval, cutValue_eq]
    exact isCut_cut signedp width value
  | .combination .full name args type =>
    rw [cutNode] at hhandled
    cases hhandled
  | .combination .known name args type =>
    rw [cutNode] at hhandled hwide ⊢
    rw [reusesNode] at hreuse
    cases hversion : findModularVersion registry name kind signedp width with
    | none =>
      rw [hversion] at hhandled
      cases hhandled
    | some version =>
      rw [hversion] at hreuse hhandled hwide
      dsimp only at hreuse hhandled hwide ⊢
      by_cases hnothing : nothingToDo name signedp width type = true
      · rw [if_pos hnothing]
        have hfits : fitsWidth signedp width type = true := by
          unfold nothingToDo at hnothing
          rw [and_eq_true] at hnothing
          exact hnothing.2
        exact fitsWidth_sound hfits hs.mem
      · rw [if_neg hnothing] at hhandled hwide ⊢
        rw [not_eq_true] at hnothing
        rw [hnothing, Bool.not_false, Bool.true_and] at hreuse
        rw [Node.Sound] at hs
        cases version with
        | good =>
          have hgood : (findModularClass registry kind signedp).funs name = .good := by
            rcases findModularVersion_cases hversion with h | ⟨_, _, h, _⟩ | ⟨h, _⟩
            · exact h.2
            · cases h
            · cases h
          exact isCut_good hreg hkind hw hgood args hs.1
            (cutArgs_modEq hreg hkind le_rfl args _ hs.1 (.inr hreuse))
            (cutArgs_cutAll hw args _ hs.1 hreuse hwide)
        | info mfi => cases hwide
        | ashOptimizer =>
          rcases cutAshArgs_cases name type resultWidth args with hcase | hcase
          · exact absurd (hcase.1.symm.trans hhandled) (by decide)
          · exact absurd (hcase.2.symm.trans hwide) (by decide)
  | .cast integerp almostImmediatelyUsed value type =>
    rw [cutNode] at hhandled
    cases integerp with
    | _ => cases hhandled

theorem cutArgs_cutAll (hw : signedp = true → 0 < width) (args : Args) (dests : List Dest)
    (hs : args.Sound other env)
    (hreuse : reusesArgs registry kind signedp width resultWidth args = false)
    (hwide : (cutArgs registry kind signedp width resultWidth dests args).overWide = false) :
    CutAll signedp width dests
      ((cutArgs registry kind signedp width resultWidth dests args).args.eval other env) := by
  match args with
  | .nil =>
    rw [cutArgs, Args.eval]
    exact trivial
  | .cons arg rest =>
    rw [reusesArgs, or_eq_false_iff] at hreuse
    rw [Args.Sound] at hs
    rw [cutArgs] at hwide ⊢
    rw [Args.eval]
    obtain ⟨hwide, hwide'⟩ := or_eq_false_iff.1 hwide
    exact ⟨insertLvarCut_isCut (fun hinsert hover =>
      cutUses_isCut hw arg hs.1 hreuse.1 hinsert hover) hwide,
      cutArgs_cutAll hw rest dests.tail hs.2 hreuse.2 hwide'⟩

end

/-! ## Cutting an lvar -/

theorem cutToWidth_modEq {m resultWidth : ℕ} (hm : m ≤ width) (dest : Dest)
    (hs : lvar.Sound other env)
    (hreuse : m ≤ resultWidth ∨ reusesLvar registry kind signedp width resultWidth lvar = false) :
    (cutToWidth registry lvar dest kind width signedp resultWidth).eval other env ≡
      lvar.eval other env [ZMOD 2 ^ m] :=
  (modEq_mono (insertLvarCut_modEq dest true _) hm).trans
    (cutUses_modEq hreg hkind hm lvar hs hreuse)

theorem cutToWidth_isCut (hw : signedp = true → 0 < width) (dest : Dest)
    (hs : lvar.Sound other env)
    (hreuse : reusesLvar registry kind signedp width resultWidth lvar = false) :
    IsCut signedp width
      ((cutToWidth registry lvar dest kind width signedp resultWidth).eval other env) ∨
      dest.cuts signedp width = true := by
  refine insertLvarCut_isCut (fun hinsert hover =>
    cutUses_isCut hreg hkind hw lvar hs hreuse hinsert hover) ?_
  unfold insertLvarCut
  split_ifs with hinsert
  · rfl
  · rfl
  · rw [or_eq_true, not_or, Bool.true_and, not_eq_true, not_eq_true] at hinsert
    exact hinsert.2

end Cut

section Reuses

variable {registry : Registry} {kind : ModularKind}

theorem reusesAshArgs_self (args : Args) : reusesAshArgs signedp width width args = false := by
  match args with
  | .nil | .cons _ .nil | .cons _ (.cons _ (.cons _ _)) => rfl
  | .cons integer (.cons count .nil) =>
    rw [reusesAshArgs, reusesAsh]
    cases hcut : cutAsh signedp width width integer count with
    | none => rfl
    | some result =>
      obtain ⟨version, cuts⟩ := result
      obtain ⟨-, ⟨rfl, -⟩ | ⟨-, rfl⟩ | ⟨rfl, rfl, hrange⟩⟩ := cutAsh_cases hcut
      · rfl
      · cases version with
        | _ => rfl
      refine (Bool.not_eq_false' _).mpr (all_eq_true.2 fun s hs => ?_)
      have hsub := all_eq_true.1 hrange s hs
      rw [sub_self, and_eq_true] at hsub
      rw [and_eq_true]
      exact ⟨hsub.1, rfl⟩

mutual

theorem reusesLvar_self (lvar : Lvar) :
    reusesLvar registry kind signedp width width lvar = false := by
  match lvar with
  | .use node =>
    rw [reusesLvar]
    exact reusesNode_self node
  | .uses _ first rest => rw [reusesLvar, reusesLvar_self first,
    reusesLvar_self rest, Bool.false_or]

theorem reusesNode_self (node : Node) :
    reusesNode registry kind signedp width width node = false := by
  match node with
  | .ref _ _ | .constant _ | .combination .full _ _ _ => rw [reusesNode]
  | .combination .known name args type =>
    rw [reusesNode]
    cases findModularVersion registry name kind signedp width with
    | none => rfl
    | some version =>
      cases version with
      | good => exact (congrArg _ (reusesArgs_self args)).trans (Bool.and_false _)
      | info mfi => exact (congrArg _ (reusesArgs_self args)).trans (Bool.and_false _)
      | ashOptimizer => exact (congrArg _ (reusesAshArgs_self args)).trans (Bool.and_false _)
  | .cast integerp almostImmediatelyUsed value type =>
    rw [reusesNode, reusesCastUses_self value, Bool.and_false, Bool.and_false]

theorem reusesArgs_self (args : Args) :
    reusesArgs registry kind signedp width width args = false := by
  match args with
  | .nil => rw [reusesArgs]
  | .cons arg rest => rw [reusesArgs, reusesLvar_self arg, reusesArgs_self rest, Bool.false_or]

theorem reusesCastUses_self (lvar : Lvar) :
    reusesCastUses registry kind signedp width width lvar = false := by
  match lvar with
  | .use (.combination kind' name args type) =>
    rw [reusesCastUses, reusesNode_self (.combination kind' name args type), Bool.and_false]
  | .use (.ref _ _) | .use (.constant _) | .use (.cast _ _ _ _) =>
    rw [reusesCastUses]
    exact fun _ _ _ _ h => nomatch h
  | .uses _ first rest => rw [reusesCastUses, reusesCastUses_self first,
    reusesCastUses_self rest, Bool.false_or]

end

end Reuses

/-! ## The optimizers -/

/-- Under a mask that is below the width, the other argument counts only modulo the width. -/
theorem logand_eq_of_exact {x' y' : ℤ} (hy : y' = y) (hcut : IsCut false m y)
    (hx : x' ≡ x [ZMOD 2 ^ m]) : logand x' y' = logand x y := by
  obtain ⟨h0, hlt⟩ := isCut_false_iff.1 hcut
  rw [hy]
  exact land_eq_of_modEq hx h0 hlt

theorem isCut_logand (hx : IsCut signedp width x) (hy : IsCut signedp width y) :
    IsCut signedp width (logand x y) :=
  (cut_land signedp width x y).trans (by rw [hx, hy]; rfl)

theorem isCut_logior (hx : IsCut signedp width x) (hy : IsCut signedp width y) :
    IsCut signedp width (logior x y) :=
  (cut_lor signedp width x y).trans (by rw [hx, hy]; rfl)

theorem isCut_of_bounds {r : ℤ} (h0 : low ≤ r) (h1 : r ≤ high)
    (hw : 1 + max (integerLength high) (integerLength low) ≤ w) : IsCut true w r := by
  obtain ⟨v, rfl⟩ : ∃ v, w = v + 1 := ⟨w - 1, by omega⟩
  refine (isCut_true_iff v).2 ⟨?_, ?_⟩
  · exact ((fits_integerLength low).mono (by omega)).1.trans h0
  · exact h1.trans_lt ((fits_integerLength high).mono (by omega)).2

theorem maskSignedField_of_modEq {size : ℕ} (hresult : IsCut true w (maskSignedField size x))
    (hmod : y ≡ x [ZMOD 2 ^ w])
    (h : IsCut true w y ∨ size ≤ w) : maskSignedField size y = maskSignedField size x := by
  rcases Nat.le_total size w with hle | hle
  · rw [maskSignedField_eq, maskSignedField_eq]
    exact cut_congr (modEq_mono hmod hle)
  rcases h with h | h
  · have hx : maskSignedField size x ≡ x [ZMOD 2 ^ w] := by
      rw [maskSignedField_eq]
      exact modEq_mono (cut_modEq true size x) hle
    have heq : y = maskSignedField size x := h.eq_of_modEq hresult (hmod.trans hx.symm)
    rw [heq, maskSignedField_eq, maskSignedField_eq]
    exact isCut_cut true size x
  · rw [maskSignedField_eq, maskSignedField_eq]
    exact cut_congr (modEq_mono hmod h)

section Optimizers

variable {registry : Registry} (hreg : registry.WellFormed other)
include hreg

theorem bestModularVersion_spec {kind : ModularKind} {w : ℕ} {s : Bool}
    (h : bestModularVersion registry width signedp = some (w, kind, s)) :
    (kind = .tagged → s = true) ∧ width ≤ w ∧ (signedp = true → s = true) ∧
      (signedp = false → s = true → width < w) := by
  have hinexact (w : ℕ × Bool) (hw : inexactMatch width signedp w = true) :
      width ≤ w.1 ∧ (signedp = true → w.2 = true) ∧
        (signedp = false → w.2 = true → width < w.1) := by
    unfold inexactMatch at hw
    split_ifs at hw with heq hfalse
    · rw [← heq]
      refine ⟨of_decide_eq_true hw, id, fun h h' => ?_⟩
      rw [h] at h'
      cases h'
    · have hlt := of_decide_eq_true hw
      rw [hfalse]
      exact ⟨hlt.le, fun h => (Bool.false_ne_true h).elim, fun _ _ => hlt⟩
  unfold bestModularVersion at h
  dsimp only at h
  split_ifs at h with hexact
  · simp only [Option.some.injEq, Prod.mk.injEq] at h
    obtain ⟨rfl, rfl, rfl⟩ := h
    refine ⟨(fun h => nomatch h), le_rfl, id, fun h h' => ?_⟩
    rw [h] at h'
    cases h'
  · cases htgt : registry.tagged.widths.find? (inexactMatch width signedp) with
    | some tgt =>
      rw [htgt] at h
      simp only [Option.some.injEq, Prod.mk.injEq] at h
      obtain ⟨rfl, rfl, rfl⟩ := h
      exact ⟨fun _ => hreg.tagged tgt (List.mem_of_find?_eq_some htgt),
        hinexact tgt (find?_some htgt)⟩
    | none =>
      rw [htgt] at h
      dsimp only at h
      split at h
      · rename_i ugt hugt
        simp only [Option.some.injEq, Prod.mk.injEq] at h
        obtain ⟨rfl, rfl, rfl⟩ := h
        exact ⟨(fun h => nomatch h), hinexact ugt (find?_some hugt)⟩
      · cases h

/-- What decides that no bit at or above the result width is kept: no shift reuses bits, or one of
the arguments has no bit there and no shift in it reuses bits. -/
def logandExact (registry : Registry) (x y : Lvar) (resultType : Ctype) : Bool :=
  match integerTypeNumericBounds resultType with
  | (some _, some high) =>
    let width := integerLength high
    match bestModularVersion registry width false with
    | some (w, kind, signedp) =>
      let reuses := reusesLvar registry kind signedp (if signedp then w else width) width
      (!reuses x && !reuses y) || (!reuses y && fitsWidth false width y.type) ||
        (!reuses x && fitsWidth false width x.type && (constantLvar y).isNone)
    | none => true
  | _ => true

theorem logand_cutToWidth {kind : ModularKind} (hkind : kind = .tagged → signedp = true)
    (hwidth : resultWidth ≤ width) (hw : signedp = true → 0 < width)
    (hcut : ∀ z, IsCut false resultWidth z → IsCut signedp width z) {x y : Lvar}
    (hx : x.Sound other env)
    (hy : y.Sound other env)
    (hresult : IsCut false resultWidth (logand (x.eval other env) (y.eval other env)))
    (hexact : ((!reusesLvar registry kind signedp width resultWidth x &&
        !reusesLvar registry kind signedp width resultWidth y) ||
        (!reusesLvar registry kind signedp width resultWidth y &&
          fitsWidth false resultWidth y.type) ||
        (!reusesLvar registry kind signedp width resultWidth x &&
          fitsWidth false resultWidth x.type && (constantLvar y).isNone)) = true) :
    logand
        ((cutToWidth registry x ((constantLvar y).elim .other .logand) kind width signedp
          resultWidth).eval other env)
        ((cutToWidth registry y .other kind width signedp resultWidth).eval other env) =
      logand (x.eval other env) (y.eval other env) := by
  have hxmod :=
    cutToWidth_modEq hreg hkind hwidth ((constantLvar y).elim .other .logand) hx (.inl le_rfl)
  have hymod := cutToWidth_modEq hreg hkind hwidth .other hy (.inl le_rfl)
  simp only [or_eq_true, and_eq_true, Bool.not_eq_true'] at hexact
  rcases hexact with (⟨hxreuse, hyreuse⟩ | ⟨hyreuse, hyfits⟩) | ⟨⟨hxreuse, hxfits⟩, hnone⟩
  -- No shift reuses bits: the arguments are exact modulo the width, and so is the result, which is
  -- of the width.
  · have hxfull :=
      cutToWidth_modEq hreg hkind le_rfl ((constantLvar y).elim .other .logand) hx (.inr hxreuse)
    have hyfull := cutToWidth_modEq hreg hkind le_rfl .other hy (.inr hyreuse)
    have hycut :=
      (cutToWidth_isCut hreg hkind hw .other hy hyreuse).resolve_right Bool.false_ne_true
    refine IsCut.eq_of_modEq ?_ (hcut _ hresult) (land_modEq hxfull hyfull)
    rcases cutToWidth_isCut hreg hkind hw ((constantLvar y).elim .other .logand) hx hxreuse
      with hxcut | hcuts
    · exact isCut_logand hxcut hycut
    exact isCut_logand_of_cuts hy hcuts hycut hyfull
  · have hyfull := cutToWidth_modEq hreg hkind le_rfl .other hy (.inr hyreuse)
    have hycut :=
      (cutToWidth_isCut hreg hkind hw .other hy hyreuse).resolve_right Bool.false_ne_true
    have hyexact := fitsWidth_sound hyfits hy.mem
    exact logand_eq_of_exact (hycut.eq_of_modEq (hcut _ hyexact) hyfull) hyexact hxmod
  · rw [Option.isNone_iff_eq_none] at hnone
    rw [hnone] at hxmod ⊢
    have hxfull := cutToWidth_modEq hreg hkind le_rfl .other hx (.inr hxreuse)
    have hxcut :=
      (cutToWidth_isCut hreg hkind hw .other hx hxreuse).resolve_right Bool.false_ne_true
    have hxexact := fitsWidth_sound hxfits hx.mem
    have heq := logand_eq_of_exact (hxcut.eq_of_modEq (hcut _ hxexact) hxfull) hxexact hymod
    unfold logand at heq ⊢
    rw [IntBits.land_comm, IntBits.land_comm (x.eval other env)]
    exact heq

theorem logandOptimizer_eq {x y : Lvar} (hx : x.Sound other env) (hy : y.Sound other env)
    (htype : resultType.Mem (logand (x.eval other env) (y.eval other env)))
    (hexact : logandExact registry x y resultType = true) :
    logand ((logandOptimizer registry x y resultType).1.eval other env)
      ((logandOptimizer registry x y resultType).2.eval other env) = logand (x.eval other env)
        (y.eval other env) := by
  unfold logandOptimizer
  unfold logandExact at hexact
  cases hbounds : integerTypeNumericBounds resultType with
  | mk low high =>
    cases low with
    | none => rfl
    | some low =>
      cases high with
      | none => rfl
      | some high =>
        dsimp only
        split_ifs with hlow
        · rw [hbounds] at hexact
          dsimp only at hexact
          cases hbest : bestModularVersion registry (integerLength high) false with
          | none => rfl
          | some best =>
            obtain ⟨w, kind, signedp⟩ := best
            rw [hbest] at hexact
            obtain ⟨hkind, hle, -, hlt⟩ := bestModularVersion_spec hreg hbest
            obtain ⟨hr0, hr1⟩ := integerTypeNumericBounds_sound hbounds htype
            have hresult :
                IsCut false (integerLength high) (logand (x.eval other env) (y.eval other env)) :=
              isCut_false_iff.2 ⟨hlow.trans hr0,
                hr1.trans_lt (lt_pow_integerLength (hlow.trans (hr0.trans hr1)))⟩
            cases signedp with
            | false =>
              exact logand_cutToWidth hreg hkind le_rfl (fun h => nomatch h) (fun _ hz =>
                hz) hx hy hresult
                hexact
            | true =>
              have hlt := hlt rfl rfl
              exact logand_cutToWidth hreg hkind hlt.le (fun _ => by omega) (fun _ hz =>
                hz.of_false hlt) hx hy
                hresult hexact
        · rfl

theorem maskSignedFieldOptimizer_eq {size x : Lvar} (hsize : size.Sound other env)
    (hx : x.Sound other env)
    (htype : resultType.Mem (maskSignedField (size.eval other env).toNat (x.eval other env))) :
    maskSignedField (size.eval other env).toNat
      ((maskSignedFieldOptimizer registry size x resultType).eval other env) =
      maskSignedField (size.eval other env).toNat (x.eval other env) := by
  unfold maskSignedFieldOptimizer
  cases hbounds : integerTypeNumericBounds resultType with
  | mk low high =>
    cases low with
    | none => rfl
    | some low =>
      cases high with
      | none => rfl
      | some high =>
        dsimp only
        cases hbest :
          bestModularVersion registry (1 + max (integerLength high) (integerLength low)) true with
        | none => rfl
        | some best =>
          obtain ⟨w, kind, signedp⟩ := best
          obtain ⟨hkind, hle, hsigned, -⟩ := bestModularVersion_spec hreg hbest
          obtain rfl := hsigned rfl
          obtain ⟨hr0, hr1⟩ := integerTypeNumericBounds_sound hbounds htype
          have hmod : _ ≡ x.eval other env [ZMOD 2 ^ w] := cutToWidth_modEq hreg hkind le_rfl
            ((constantLvar size).elim .other .maskSignedField) hx (.inl (le_refl w))
          have hcut := cutToWidth_isCut hreg hkind (fun _ => by omega)
            ((constantLvar size).elim .other .maskSignedField) hx
            (@reusesLvar_self true w registry kind x)
          have hresult := isCut_of_bounds hr0 hr1 hle
          exact maskSignedField_of_modEq hresult hmod (hcut.imp_right fun hcuts => by
            cases hc : constantLvar size with
            | none =>
              rw [hc] at hcuts
              cases hcuts
            | some c =>
              rw [hc, elim_some, Dest.cuts, Bool.true_and, decide_eq_true_eq] at hcuts
              rw [eval_of_constantLvar hsize hc]
              omega)

theorem logiorOptimizer_eq {x y : Lvar} (hx : x.Sound other env) (hy : y.Sound other env)
    (htype : resultType.Mem (logior (x.eval other env) (y.eval other env))) :
    logior ((logiorOptimizer registry x y resultType).1.eval other env)
      ((logiorOptimizer registry x y resultType).2.eval other env) = logior (x.eval other env)
        (y.eval other env) := by
  unfold logiorOptimizer logiorCutWidth
  cases hbounds : integerTypeNumericBounds resultType with
  | mk low high =>
    cases low with
    | none => rfl
    | some low =>
      cases high with
      | none => rfl
      | some high =>
        dsimp only
        split_ifs with hhigh
        · cases hbest : bestModularVersion registry (1 + integerLength low) true with
          | none => rfl
          | some best =>
            obtain ⟨w, kind, signedp⟩ := best
            obtain ⟨hkind, hle, hsigned, -⟩ := bestModularVersion_spec hreg hbest
            obtain rfl := hsigned rfl
            obtain ⟨hr0, hr1⟩ := integerTypeNumericBounds_sound hbounds htype
            have hw : true = true → 0 < w := fun _ => by omega
            have hxmod : _ ≡ x.eval other env [ZMOD 2 ^ w] :=
              cutToWidth_modEq hreg hkind le_rfl .other hx (.inl (le_refl w))
            have hymod : _ ≡ y.eval other env [ZMOD 2 ^ w] :=
              cutToWidth_modEq hreg hkind le_rfl .other hy (.inl (le_refl w))
            have hxcut := (cutToWidth_isCut hreg hkind hw .other hx
              (@reusesLvar_self true w registry kind x)).resolve_right Bool.false_ne_true
            have hycut := (cutToWidth_isCut hreg hkind hw .other hy
              (@reusesLvar_self true w registry kind y)).resolve_right Bool.false_ne_true
            have hresult : IsCut true w (logior (x.eval other env) (y.eval other env)) :=
              isCut_of_bounds hr0 (hr1.trans hhigh)
                (by rw [show integerLength 0 = 0 from rfl]; omega)
            exact (isCut_logior hxcut hycut).eq_of_modEq hresult (lor_modEq hxmod hymod)
        · rfl

end Optimizers

/-! ## x86-64 -/

/-- A function of two arguments, which has the value 0 on other lists. -/
def IsBinary (other : String → List ℤ → ℤ) (name : Fun) (f : ℤ → ℤ → ℤ) : Prop :=
  ∀ args, name.eval other args = match args with | [a, b] => f a b | _ => 0

def binary : Fun → Option (ℤ → ℤ → ℤ)
  | .logand => some logand
  | .logior => some logior
  | .logxor => some logxor
  | .logeqv => some fun a b => lognot (logxor a b)
  | .lognand => some fun a b => lognot (logand a b)
  | .lognor => some lognor
  | .logandc2 => some logandc2
  | .logorc1 => some fun a b => logior (lognot a) b
  | .logorc2 => some fun a b => logior a (lognot b)
  | .add => some (· + ·)
  | .sub => some (· - ·)
  | .mul => some (· * ·)
  | _ => none

theorem isBinary (h : binary name = some f) : IsBinary other name f := by
  intro args
  cases name <;> cases h <;> match args with
  | [] | [_] | [_, _] | _ :: _ :: _ :: _ => rfl

theorem IsBinary.cut (h : IsBinary other name f)
    (hf : ∀ a b, Truncation.cut signedp w (f a b) =
      f (Truncation.cut signedp w a) (Truncation.cut signedp w b))
    (args : List ℤ) : cutValue signedp w (name.eval other args) =
      name.eval other (args.map (cutValue signedp w)) := by
  rw [h, h, cutValue_eq]
  match args with
  | [a, b] =>
    rw [map_cons, map_cons, List.map_nil, cutValue_eq, cutValue_eq]
    exact hf a b
  | [] | [_] | _ :: _ :: _ :: _ => exact isCut_zero signedp w

theorem IsBinary.modEq (h : IsBinary other name f)
    (hf : ∀ {a a' b b'}, a' ≡ a [ZMOD 2 ^ m] → b' ≡ b [ZMOD 2 ^ m] → f a' b' ≡ f a b [ZMOD 2 ^ m])
    (hargs : ModEqs m args' args) :
    name.eval other args' ≡ name.eval other args [ZMOD 2 ^ m] := by
  rw [h, h]
  match args', args, hargs with
  | [_, _], [_, _], .cons ha (.cons hb .nil) => exact hf ha hb
  | [], [], .nil => rfl
  | [_], [_], .cons _ .nil => rfl
  | _ :: _ :: _ :: _, _ :: _ :: _ :: _, .cons _ (.cons _ (.cons _ _)) => rfl

theorem logandc2_eq (a b : ℤ) : logandc2 a b = logand a (lognot b) :=
  IntBits.eq_of_testBit_eq fun i => by
    unfold logandc2 logand lognot
    rw [Int.testBit_ldiff, Int.testBit_land, Int.testBit_lnot]

theorem unsigned_good (h : name ∈ [Fun.logand, .logior, .logxor]) (w : ℕ) (args : List ℤ) :
    cutValue signedp w (name.eval other args) =
      name.eval other (args.map (cutValue signedp w)) := by
  simp only [mem_cons, not_mem_nil, or_false] at h
  rcases h with rfl | rfl | rfl
  · exact IsBinary.cut (isBinary rfl) (cut_land signedp w) args
  · exact IsBinary.cut (isBinary rfl) (cut_lor signedp w) args
  · exact IsBinary.cut (isBinary rfl) (cut_lxor signedp w) args

theorem signed_good (h : name ∈ goodSignedModularFuns) (hw : 0 < w) (args : List ℤ) :
    cutValue true w (name.eval other args) = name.eval other (args.map (cutValue true w)) := by
  simp only [goodSignedModularFuns, mem_cons, not_mem_nil, or_false] at h
  rcases h with rfl | rfl | rfl | rfl | rfl | rfl | rfl | rfl | rfl | rfl
  · exact unsigned_good (by decide) w args
  · refine IsBinary.cut (isBinary rfl) (fun a b => ?_) args
    rw [logandc2_eq, logandc2_eq]
    unfold logand lognot
    rw [cut_land, cut_lnot hw]
  · refine IsBinary.cut (isBinary rfl) (fun a b => ?_) args
    unfold lognot logxor
    rw [cut_lnot hw, cut_lxor]
  · exact unsigned_good (by decide) w args
  · refine IsBinary.cut (isBinary rfl) (fun a b => ?_) args
    unfold lognot logand
    rw [cut_lnot hw, cut_land]
  · refine IsBinary.cut (isBinary rfl) (fun a b => ?_) args
    unfold lognor lognot logior
    rw [cut_lnot hw, cut_lor]
  · rw [cutValue_eq]
    match args with
    | [a] =>
      rw [map_cons, List.map_nil, cutValue_eq]
      exact cut_lnot hw a
    | [] | _ :: _ :: _ => exact isCut_zero true w
  · refine IsBinary.cut (isBinary rfl) (fun a b => ?_) args
    unfold lognot logior
    rw [cut_lor, cut_lnot hw]
  · refine IsBinary.cut (isBinary rfl) (fun a b => ?_) args
    unfold lognot logior
    rw [cut_lor, cut_lnot hw]
  · exact unsigned_good (by decide) w args

theorem prototype_modEq (h : name ∈ [Fun.add, .sub, .mul, .negate, .lognot])
    (hargs : ModEqs m args' args) : name.eval other args' ≡ name.eval other args [ZMOD 2 ^ m] := by
  simp only [mem_cons, not_mem_nil, or_false] at h
  rcases h with rfl | rfl | rfl | rfl | rfl
  · exact IsBinary.modEq (isBinary rfl) (fun ha hb => ha.add hb) hargs
  · exact IsBinary.modEq (isBinary rfl) (fun ha hb => ha.sub hb) hargs
  · exact IsBinary.modEq (isBinary rfl) (fun ha hb => ha.mul hb) hargs
  · match args', args, hargs with
    | [_], [_], .cons ha .nil => exact ha.neg
    | [], [], .nil => rfl
    | _ :: _ :: _, _ :: _ :: _, .cons _ (.cons _ _) => rfl
  · match args', args, hargs with
    | [_], [_], .cons ha .nil => exact lnot_modEq ha
    | [], [], .nil => rfl
    | _ :: _ :: _, _ :: _ :: _, .cons _ (.cons _ _) => rfl

theorem x8664_good (hkind : kind = .tagged → signedp = true)
    (h : (findModularClass x8664 kind signedp).funs name = .good) :
    name ∈ [Fun.logand, .logior, .logxor] ∨ (signedp = true ∧ name ∈ goodSignedModularFuns) := by
  cases kind with
  | untagged =>
    cases signedp with
    | false =>
      simp only [findModularClass, x8664, false_eq_true, if_false] at h
      split_ifs at h with hmem
      exact .inl hmem
    | true =>
      simp only [findModularClass, x8664, if_true] at h
      split_ifs at h with hmem
      exact .inr ⟨rfl, hmem⟩
  | tagged =>
    simp only [findModularClass, x8664] at h
    split_ifs at h with hmem
    exact .inr ⟨hkind rfl, hmem⟩

theorem x8664_infos {infos : List ModularFunInfo}
    (h : (findModularClass x8664 kind signedp).funs name = .infos infos) :
    infos = [] ∨ name ∈ [Fun.add, .sub, .mul, .negate, .lognot] := by
  cases kind with
  | untagged =>
    cases signedp with
    | false =>
      simp only [findModularClass, x8664, false_eq_true, if_false] at h
      split_ifs at h with _ _ hmem
      · exact .inr hmem
      · exact .inl (ModularEntry.infos.inj h).symm
    | true =>
      simp only [findModularClass, x8664, if_true] at h
      split_ifs at h
      exact .inl (ModularEntry.infos.inj h).symm
  | tagged =>
    simp only [findModularClass, x8664] at h
    split_ifs at h with _ _ hmem
    · exact .inr (List.mem_append_left [Fun.lognot] hmem)
    · exact .inl (ModularEntry.infos.inj h).symm

theorem x8664_ash
    (h : (findModularClass x8664 kind signedp).funs name = .ashOptimizer) : name = .ash := by
  cases kind with
  | untagged =>
    cases signedp with
    | false =>
      simp only [findModularClass, x8664, false_eq_true, if_false] at h
      split_ifs at h with _ hash
      exact hash
    | true =>
      simp only [findModularClass, x8664, if_true] at h
      split_ifs at h
  | tagged =>
    simp only [findModularClass, x8664] at h
    split_ifs at h with _ hash
    exact hash

theorem x8664_wellFormed : x8664.WellFormed other where
  good kind signedp name hkind h w args hw := by
    rcases x8664_good hkind h with hmem | ⟨rfl, hmem⟩
    · exact unsigned_good hmem w args
    · exact signed_good hmem (hw rfl) args
  infos kind signedp name infos _ h mfi hmfi m _ args args' hargs := by
    rcases x8664_infos h with rfl | hmem
    · exact absurd hmfi not_mem_nil
    · exact prototype_modEq hmem hargs
  ash _ _ _ _ h := x8664_ash h
  tagged w hw := by rw [List.eq_of_mem_replicate hw]

theorem bestModularVersion_x8664 (width : ℕ) :
    bestModularVersion x8664 width false =
      if width = 64 then some (64, .untagged, false)
      else if width < 63 then some (63, .tagged, true)
      else if width ≤ 64 then some (64, .untagged, false) else none := by
  unfold bestModularVersion
  rw [show x8664.untaggedSigned.widths = [] from rfl, List.merge_right,
    show x8664.untaggedUnsigned.widths = List.replicate 5 (64, false) from rfl,
    show x8664.tagged.widths = List.replicate 4 (63, true) from rfl]
  simp only [List.mem_replicate, List.find?_replicate, inexactMatch, Prod.mk.injEq, and_true]
  by_cases h64 : width = 64
  · simp [h64]
  by_cases h63 : width < 63
  · simp [h64, h63]
  · by_cases hle : width ≤ 64
    · simp [h64, h63, hle]
    · simp [h64, h63, hle]

/-! ## Masked expressions -/

/-- A masked expression has the same value after its optimizer cut the operands to a width: always
under `mask-signed-field` and `logior`, and under `logand` when no bit at or above the result width
is kept. -/
theorem optimizers_eq {registry : Registry} (hreg : registry.WellFormed other) (x y : Lvar)
    (resultType : Ctype) (hx : x.Sound other env) (hy : y.Sound other env) :
    (resultType.Mem (logand (x.eval other env) (y.eval other env)) →
      logandExact registry x y resultType = true →
      logand ((logandOptimizer registry x y resultType).1.eval other env)
        ((logandOptimizer registry x y resultType).2.eval other env) = logand (x.eval other env)
          (y.eval other env)) ∧
    (resultType.Mem (maskSignedField (x.eval other env).toNat (y.eval other env)) →
      maskSignedField (x.eval other env).toNat
        ((maskSignedFieldOptimizer registry x y resultType).eval other env) =
        maskSignedField (x.eval other env).toNat (y.eval other env)) ∧
    (resultType.Mem (logior (x.eval other env) (y.eval other env)) →
      logior ((logiorOptimizer registry x y resultType).1.eval other env)
        ((logiorOptimizer registry x y resultType).2.eval other env) = logior (x.eval other env)
          (y.eval other env)) :=
  ⟨logandOptimizer_eq hreg hx hy, maskSignedFieldOptimizer_eq hreg hx hy,
    logiorOptimizer_eq hreg hx hy⟩

/-- A word of a sum. -/
theorem optimizers_eq_word :
    let x := Lvar.use (.ref 0 integerCtype)
    let y := Lvar.use
      (.combination .known .add (.cons x (.cons (.use (.constant 1)) .nil)) integerCtype)
    let mask := Lvar.use (.constant (2 ^ 64 - 1))
    let env : Env := ⟨fun _ => 2 ^ 70 + 6, fun _ => true⟩
    let none : String → List ℤ → ℤ := fun _ _ => 0
    logand ((logandOptimizer x8664 y mask (unsignedByte 64)).1.eval none env)
      ((logandOptimizer x8664 y mask (unsignedByte 64)).2.eval none env) = 7 := by
  intro x y mask env none
  have hsound : y.Sound none env := by
    simp only [y, x, Lvar.Sound, Node.Sound, Args.Sound]
    exact ⟨⟨integerCtype_mem _, trivial, trivial⟩, integerCtype_mem _⟩
  have hvalue : logand (y.eval none env) (mask.eval none env) = 7 := by decide
  rw [(optimizers_eq x8664_wellFormed y mask (unsignedByte 64) hsound (by simp only [mask,
    Lvar.Sound, Node.Sound])).1 ?_ ?_]
  · exact hvalue
  · rw [hvalue]
    exact mem_specifierInteger (by decide) (by decide)
  unfold logandExact
  rw [show integerTypeNumericBounds (unsignedByte 64) = (some 0, some (2 ^ 64 - 1)) by decide]
  dsimp only
  rw [show integerLength (2 ^ 64 - 1) = 64 by decide, bestModularVersion_x8664, if_pos rfl]
  decide

/-- A right shift of an integer that is not a word keeps only the bits below the result width, where
the sum that it is part of relies on those of the modular width. -/
def shiftedSum : Lvar :=
  let z := Lvar.use (.ref 1 (specifierInteger (some (2 ^ 73)) (some (2 ^ 73 + 2 ^ 54 - 1))))
  let shifted := Lvar.use (.combination .known .ash (.cons z (.cons (.use (.constant (-53))) .nil))
    (specifierInteger (some (2 ^ 20)) (some (2 ^ 20 + 1))))
  .use (.combination .known .add (.cons shifted (.cons (.use (.constant (-2 ^ 20))) .nil))
    (specifierInteger (some 0) (some 1)))

theorem logandOptimizer_shiftedSum :
    let x := Lvar.use (.ref 0 integerCtype)
    let env : Env := ⟨fun leaf => if leaf = 0 then 2 ^ 20 else 2 ^ 73, fun _ => true⟩
    let none : String → List ℤ → ℤ := fun _ _ => 0
    x8664.WellFormed none ∧ x.Sound none env ∧ shiftedSum.Sound none env ∧
      (unsignedByte 1).Mem (logand (x.eval none env) (shiftedSum.eval none env)) ∧
      logand (x.eval none env) (shiftedSum.eval none env) = 0 ∧
      logand ((logandOptimizer x8664 x shiftedSum (unsignedByte 1)).1.eval none env)
        ((logandOptimizer x8664 x shiftedSum (unsignedByte 1)).2.eval none env) = 2 ^ 20 := by
  intro x env none
  have hvalue : logand (x.eval none env) (shiftedSum.eval none env) = 0 := by decide
  refine ⟨x8664_wellFormed, ?_, ?_, ?_, hvalue, ?_⟩
  · simp only [x, Lvar.Sound, Node.Sound]
    exact integerCtype_mem _
  · simp only [shiftedSum, Lvar.Sound, Node.Sound, Args.Sound]
    refine ⟨⟨⟨⟨?_, trivial, trivial⟩, ?_⟩, trivial, trivial⟩, ?_⟩
    · exact mem_specifierInteger (by decide) (by decide)
    · exact mem_specifierInteger (by decide) (by decide)
    · exact mem_specifierInteger (by decide) (by decide)
  · rw [hvalue]
    exact mem_specifierInteger (by decide) (by decide)
  · unfold logandOptimizer
    rw [show integerTypeNumericBounds (unsignedByte 1) = (some 0, some 1) by decide]
    dsimp only
    rw [if_pos le_rfl, show integerLength 1 = 1 from rfl, bestModularVersion_x8664,
      if_neg (by decide), if_pos (by decide)]
    decide +kernel

end Sbcl.Compiler.Modarith
