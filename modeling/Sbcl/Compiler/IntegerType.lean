import Sbcl.Integer

/-!
# Integer types (code/type.lisp, compiler/bitops-derive-type.lisp)

* `IntegerType` : a numeric type of class integer, with bounds that do not cross;
* `Ctype` : a union of such types; `specifierInteger`, `unsignedByte`, `signedByte` :
  `specifier-type` of an integer specifier;
* `integerTypeLength` : the bits that the members of a type take up, and their signs.
-/

namespace Sbcl.Compiler

/-- A `numeric-type` of class integer; an absent bound is `none`. -/
structure IntegerType where
  low : Option ℤ
  high : Option ℤ
  valid : ∀ l ∈ low, ∀ h ∈ high, l ≤ h

namespace IntegerType

instance : Membership ℤ IntegerType := ⟨fun t n => (∀ l ∈ t.low, l ≤ n) ∧ ∀ h ∈ t.high, n ≤ h⟩

variable {t : IntegerType} {n l h : ℤ}

theorem low_le (hn : n ∈ t) (hl : t.low = some l) : l ≤ n := hn.1 l hl

theorem le_high (hn : n ∈ t) (hh : t.high = some h) : n ≤ h := hn.2 h hh

/-- `make-numeric-type :class 'integer`; nothing when the bounds cross. -/
def make (low high : Option ℤ) : Option IntegerType :=
  if h : ∀ l ∈ low, ∀ h ∈ high, l ≤ h then some ⟨low, high, h⟩ else none

theorem make_eq {low high : Option ℤ} (h : ∀ l ∈ low, ∀ h ∈ high, l ≤ h) :
    make low high = some ⟨low, high, h⟩ := dif_pos h

/-- The second value of `type-singleton-p`, when the first is true. -/
def singleton (t : IntegerType) : Option ℤ := if t.low = t.high then t.low else none

theorem eq_of_singleton (h : t.singleton = some l) (hn : n ∈ t) : n = l := by
  unfold singleton at h
  split_ifs at h with heq
  exact le_antisymm (le_high hn (heq ▸ h)) (low_le hn h)

end IntegerType

abbrev Ctype := List IntegerType

/-- `n` is in a member of the union. -/
def Ctype.Mem (t : Ctype) (n : ℤ) : Prop := ∃ s ∈ t, n ∈ s

/-- `(integer low high)`. -/
def specifierInteger (low high : Option ℤ) : Ctype := (IntegerType.make low high).toList

/-- `(unsigned-byte* size)`. -/
def unsignedByte (size : ℕ) : Ctype := specifierInteger (some 0) (some (2 ^ size - 1))

/-- `(signed-byte size)` of a positive size. -/
def signedByte (size : ℕ) : Ctype :=
  specifierInteger (some (-(2 ^ (size - 1)))) (some (2 ^ (size - 1) - 1))

theorem mem_specifierInteger {low high : Option ℤ} {n : ℤ} (hl : ∀ l ∈ low, l ≤ n)
    (hh : ∀ h ∈ high, n ≤ h) : (specifierInteger low high).Mem n := by
  unfold specifierInteger
  rw [IntegerType.make_eq fun l hlow h hhigh => (hl l hlow).trans (hh h hhigh)]
  exact ⟨_, List.mem_singleton_self _, hl, hh⟩

theorem Ctype.Mem.append_left {s : Ctype} {n : ℤ} (h : s.Mem n) (t : Ctype) :
    Ctype.Mem (s ++ t) n := by
  obtain ⟨u, hu, hn⟩ := h
  exact ⟨u, List.mem_append_left t hu, hn⟩

theorem Ctype.Mem.append_right {t : Ctype} {n : ℤ} (h : t.Mem n) (s : Ctype) :
    Ctype.Mem (s ++ t) n := by
  obtain ⟨u, hu, hn⟩ := h
  exact ⟨u, List.mem_append_right s hu, hn⟩

/-- The values of `integer-type-length`. -/
structure TypeLength where
  len : Option ℕ
  pos : Bool
  neg : Bool
  low : Option ℤ
  high : Option ℤ

/-- `integer-type-length` of a numeric type of class integer. -/
def integerTypeLength (t : IntegerType) : TypeLength where
  len := match t.low, t.high with
    | some min, some max => some (Max.max (integerLength min) (integerLength max))
    | _, _ => none
  pos := match t.high with
    | none => true
    | some max => !decide (max < 0)
  neg := match t.low with
    | none => true
    | some min => decide (min < 0)
  low := t.low
  high := t.high

end Sbcl.Compiler
