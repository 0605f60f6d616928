import Sbcl.Compiler.IntegerType

/-!
# Deriving types of combinations (compiler/srctran.lisp)

* `ranges` : the ranges of a union, those that touch made one;
* `widenBignumTypes`, `weakenNumericTypeUnion`, `makeDerivedUnionType` : the union of derived types,
  with no large bounds and few ranges;
* `oneArgDeriveType`, `twoArgDeriveType` : a derived type from those of the members of unions;
* `Derives` : what a derived type says, nothing if there is none;
* `oneArgDeriveType_sound`, `twoArgDeriveType_sound` : they say what is true of the values.
-/

namespace Sbcl.Compiler

open List
open Option (bind_eq_some_iff mem_map₂_iff)

variable {s t : IntegerType} {m n : ℤ}
variable {u : Ctype} {deriveFun : IntegerType → Option Ctype} {results : List Ctype} {r : ℤ}

/-! ## Ranges -/

namespace IntegerType

/-- Some integer is in both ranges, or they are next to each other. -/
def Touches (s t : IntegerType) : Prop :=
  (∀ h ∈ s.high, ∀ l ∈ t.low, l ≤ h + 1) ∧ ∀ h ∈ t.high, ∀ l ∈ s.low, l ≤ h + 1

instance : Decidable (Touches s t) := inferInstanceAs (Decidable (_ ∧ _))

/-- The least range around two. -/
def hull (s t : IntegerType) : IntegerType where
  low := Option.map₂ min s.low t.low
  high := Option.map₂ max s.high t.high
  valid l hl h hh := by
    obtain ⟨a, b, ha, hb, rfl⟩ := mem_map₂_iff.1 hl
    obtain ⟨c, d, hc, hd, rfl⟩ := mem_map₂_iff.1 hh
    exact (min_le_left a b).trans ((s.valid a ha c hc).trans (le_max_left c d))

theorem mem_hull_left (hn : n ∈ s) (t : IntegerType) : n ∈ hull s t := by
  refine ⟨fun l hl => ?_, fun h hh => ?_⟩
  · obtain ⟨a, b, ha, -, rfl⟩ := mem_map₂_iff.1 hl
    exact (min_le_left a b).trans (hn.1 a ha)
  · obtain ⟨c, d, hc, -, rfl⟩ := mem_map₂_iff.1 hh
    exact (hn.2 c hc).trans (le_max_left c d)

theorem mem_hull_right (s : IntegerType) (hn : n ∈ t) : n ∈ hull s t := by
  refine ⟨fun l hl => ?_, fun h hh => ?_⟩
  · obtain ⟨a, b, -, hb, rfl⟩ := mem_map₂_iff.1 hl
    exact (min_le_right a b).trans (hn.1 b hb)
  · obtain ⟨c, d, -, hd, rfl⟩ := mem_map₂_iff.1 hh
    exact (hn.2 d hd).trans (le_max_right c d)

end IntegerType

open IntegerType

/-- A range added to others, and what it touches put in it. -/
def insertRange (t : IntegerType) : Ctype → Ctype
  | [] => [t]
  | s :: rest => if Touches s t then insertRange (hull s t) rest else s :: insertRange t rest

/-- The ranges of a union, as a `numeric-union-type` has them. -/
def ranges (t : Ctype) : Ctype := t.foldr insertRange []

/-- `numeric-type-p`: one range. -/
def numericTypeP (t : Ctype) : Bool := (ranges t).length = 1

theorem mem_insertRange_of_mem (hn : n ∈ t) (u : Ctype) : (insertRange t u).Mem n := by
  induction u generalizing t with
  | nil => exact ⟨t, mem_singleton_self t, hn⟩
  | cons s rest ih =>
    unfold insertRange
    split
    · exact ih (mem_hull_right s hn)
    · obtain ⟨r, hr, hnr⟩ := ih hn
      exact ⟨r, mem_cons_of_mem s hr, hnr⟩

theorem mem_insertRange (t : IntegerType) (hn : u.Mem n) : (insertRange t u).Mem n := by
  induction u generalizing t with
  | nil =>
    obtain ⟨r, hr, -⟩ := hn
    cases hr
  | cons s rest ih =>
    obtain ⟨r, hr, hnr⟩ := hn
    unfold insertRange
    rcases mem_cons.1 hr with rfl | hr
    · split
      · exact mem_insertRange_of_mem (mem_hull_left hnr t) rest
      · exact ⟨r, mem_cons_self, hnr⟩
    split
    · exact ih (hull s t) ⟨r, hr, hnr⟩
    · obtain ⟨r', hr', hn'⟩ := ih t ⟨r, hr, hnr⟩
      exact ⟨r', mem_cons_of_mem s hr', hn'⟩

theorem mem_ranges (hn : u.Mem n) : (ranges u).Mem n := by
  induction u with
  | nil => exact hn
  | cons t u ih =>
    obtain ⟨r, hr, hnr⟩ := hn
    rcases mem_cons.1 hr with rfl | hr
    · exact mem_insertRange_of_mem hnr _
    · exact mem_insertRange t (ih ⟨r, hr, hnr⟩)

/-! ## Unions of derived types -/

def widenBignumTypes (t : IntegerType) : Ctype :=
  specifierInteger (t.low.bind fun lo => if 512 < integerLength lo then
    if 0 < lo then some (2 ^ 512) else none else some lo)
    (t.high.bind fun hi => if 512 < integerLength hi then if hi < 0 then some (-(2 ^ 512))
      else none else some hi)

/-- `weaken-numeric-union`: the range from the first bound to the last. -/
def weakenNumericUnion : Ctype → Ctype
  | [] => []
  | t :: rest => [rest.foldl hull t]

/-- `weaken-numeric-type-union`, of ranges. -/
def weakenNumericTypeUnion (n : ℕ) (t : Ctype) : Ctype :=
  if n < t.length then weakenNumericUnion t else t

def derivedNumericUnionComplexityLimit : ℕ := 6

def makeDerivedUnionType (typeList : List Ctype) : Ctype :=
  let numericType :=
    ranges ((typeList.filter numericTypeP).flatMap fun t => (ranges t).flatMap widenBignumTypes)
  let miscTypes := typeList.filter fun t => !numericTypeP t
  weakenNumericTypeUnion derivedNumericUnionComplexityLimit numericType ++ miscTypes.flatten

/-- The type of a list of results; nothing for none. -/
def derivedUnion : List Ctype → Option Ctype
  | [] => none
  | [t] => some t
  | results => some (makeDerivedUnionType results)

theorem mem_widenBignumTypes (hn : n ∈ t) : (widenBignumTypes t).Mem n := by
  refine mem_specifierInteger (fun l hl => ?_) fun h hh => ?_
  · obtain ⟨lo, hlo, hl⟩ := bind_eq_some_iff.1 hl
    have hle := low_le hn hlo
    split_ifs at hl with hlen hpos
    · obtain rfl := Option.some.inj hl
      exact ((lt_integerLength_iff hpos.le 512).1 hlen).trans hle
    · exact Option.some.inj hl ▸ hle
  · obtain ⟨hi, hhi, hh⟩ := bind_eq_some_iff.1 hh
    have hle := le_high hn hhi
    split_ifs at hh with hlen hneg
    · obtain rfl := Option.some.inj hh
      have hlow :=
        (lt_integerLength_iff (n := lognot hi) (by rw [lognot, IntBits.lnot_eq]; omega) 512).1
        (by rwa [integerLength_lognot])
      rw [lognot, IntBits.lnot_eq] at hlow
      omega
    · exact Option.some.inj hh ▸ hle

theorem mem_weakenNumericUnion (hn : u.Mem n) : (weakenNumericUnion u).Mem n := by
  obtain ⟨r, hr, hnr⟩ := hn
  have hfold (rest : Ctype) (t : IntegerType) (h : n ∈ t ∨ ∃ r ∈ rest, n ∈ r) :
      n ∈ rest.foldl hull t := by
    induction rest generalizing t with
    | nil => simpa using h
    | cons s rest ih =>
      refine ih (hull t s) ?_
      rcases h with h | ⟨r, hr, h⟩
      · exact .inl (mem_hull_left h s)
      · rcases mem_cons.1 hr with rfl | hr
        · exact .inl (mem_hull_right t h)
        · exact .inr ⟨r, hr, h⟩
  cases u with
  | nil => cases hr
  | cons t rest =>
    refine ⟨_, mem_singleton_self _, hfold rest t ?_⟩
    rcases mem_cons.1 hr with rfl | hr
    · exact .inl hnr
    · exact .inr ⟨r, hr, hnr⟩

theorem mem_makeDerivedUnionType {typeList : List Ctype} (hu : u ∈ typeList) (hn : u.Mem n) :
    (makeDerivedUnionType typeList).Mem n := by
  by_cases hp : numericTypeP u = true
  · refine Ctype.Mem.append_left ?_ _
    have hnumeric :
        (ranges ((typeList.filter numericTypeP).flatMap fun t =>
          (ranges t).flatMap widenBignumTypes)).Mem n := by
      obtain ⟨r, hr, hnr⟩ := mem_ranges hn
      obtain ⟨w, hw, hnw⟩ := mem_widenBignumTypes hnr
      exact mem_ranges ⟨w, mem_flatMap.2 ⟨u, mem_filter.2 ⟨hu, hp⟩, mem_flatMap.2 ⟨r, hr, hw⟩⟩, hnw⟩
    unfold weakenNumericTypeUnion
    split
    · exact mem_weakenNumericUnion hnumeric
    · exact hnumeric
  · obtain ⟨r, hr, hnr⟩ := hn
    refine Ctype.Mem.append_right ⟨r, mem_flatten.2 ⟨u, mem_filter.2 ⟨hu, ?_⟩, hr⟩, hnr⟩ _
    simpa using hp

/-! ## Combinations -/

def oneArgDeriveType (argType : Ctype) (deriveFun : IntegerType → Option Ctype) : Option Ctype := do
  derivedUnion (← (ranges argType).mapM deriveFun)

/-- `%two-arg-derive-type`; what cannot be derived is an integer by `numeric-contagion`. -/
def twoArgDeriveType (arg1Type arg2Type : Ctype)
    (deriveFun : IntegerType → IntegerType → Bool → Option Ctype)
    (sameLeaf : Bool) : Option Ctype :=
  let a1 := ranges arg1Type
  let a2 := ranges arg2Type
  if a1.isEmpty || a2.isEmpty then none
  else if sameLeaf then derivedUnion (a1.filterMap fun x => deriveFun x x true)
  else derivedUnion (a1.flatMap fun x => a2.map fun y =>
    (deriveFun x y false).getD (specifierInteger none none))

/-- `n` is in the type, if one was derived. -/
def Derives (d : Option Ctype) (n : ℤ) : Prop := ∀ t ∈ d, t.Mem n

theorem derives_derivedUnion (hu : u ∈ results) (hn : u.Mem n) :
    Derives (derivedUnion results) n := by
  intro t ht
  unfold derivedUnion at ht
  split at ht
  · cases ht
  · obtain rfl := Option.some.inj ht
    exact mem_singleton.1 hu ▸ hn
  · obtain rfl := Option.some.inj ht
    exact mem_makeDerivedUnionType hu hn

/-- Where every member has a derived type, that of a member is among the results. -/
theorem mem_of_mapM {args : Ctype} {x : IntegerType}
    (h : args.mapM deriveFun = some results) (hx : x ∈ args) : ∃ u ∈ results,
      deriveFun x = some u := by
  induction args generalizing results with
  | nil => cases hx
  | cons a args ih =>
    rw [mapM_cons] at h
    obtain ⟨u, hu, h⟩ := bind_eq_some_iff.1 h
    obtain ⟨us, hus, h⟩ := bind_eq_some_iff.1 h
    obtain rfl := Option.some.inj h
    rcases mem_cons.1 hx with rfl | hx
    · exact ⟨u, mem_cons_self, hu⟩
    · obtain ⟨v, hv, hxv⟩ := ih hus hx
      exact ⟨v, mem_cons_of_mem u hv, hxv⟩

theorem oneArgDeriveType_sound {argType : Ctype} (hn : argType.Mem n)
    (h : ∀ x, n ∈ x → Derives (deriveFun x) r) :
    Derives (oneArgDeriveType argType deriveFun) r := by
  intro t ht
  obtain ⟨results, hresults, ht⟩ := bind_eq_some_iff.1 ht
  obtain ⟨x, hx, hnx⟩ := mem_ranges hn
  obtain ⟨u, hu, hxu⟩ := mem_of_mapM hresults hx
  exact derives_derivedUnion hu (h x hnx u hxu) t ht

theorem twoArgDeriveType_sound {arg1Type arg2Type : Ctype}
    {deriveFun : IntegerType → IntegerType → Bool → Option Ctype}
    {sameLeaf : Bool} (hm : arg1Type.Mem m) (hn : arg2Type.Mem n) (hsame : sameLeaf = true → m = n)
    (h : ∀ x y, m ∈ x → n ∈ y → ∃ t, deriveFun x y sameLeaf = some t ∧ t.Mem r) :
    Derives (twoArgDeriveType arg1Type arg2Type deriveFun sameLeaf) r := by
  obtain ⟨x, hx, hmx⟩ := mem_ranges hm
  obtain ⟨y, hy, hny⟩ := mem_ranges hn
  unfold twoArgDeriveType
  rw [if_neg (by simp [ne_nil_of_mem hx, ne_nil_of_mem hy])]
  cases sameLeaf with
  | true =>
    obtain ⟨t, ht, hr⟩ := h x x hmx (hsame rfl ▸ hmx)
    exact derives_derivedUnion (mem_filterMap.2 ⟨x, hx, ht⟩) hr
  | false =>
    obtain ⟨t, ht, hr⟩ := h x y hmx hny
    refine derives_derivedUnion (mem_flatMap.2 ⟨x, hx, mem_map.2 ⟨y, hy, rfl⟩⟩) ?_
    rwa [ht]

end Sbcl.Compiler
