import Mathlib.Algebra.Group.Int.Defs
import Mathlib.Order.Lattice
import Mathlib.Tactic.Basic

/-!
# Machine words, fixnums and descriptor addresses

The 64-bit object representation shared by the lisp and C sides: an untagged word, a fixnum with one
tag bit, and `getLispObjAddress`, the bits of a descriptor read as an unsigned word.
-/

namespace Sbcl

/-- `sb-vm:word`. -/
abbrev Word := BitVec 64

def nWordBits : Nat := 64

def nFixnumTagBits : Nat := 1

/-- `sb-vm:n-positive-fixnum-bits`. -/
def nPositiveFixnumBits : Nat := 62

instance : IsStrictTotalOrder Word (· < ·) where
  irrefl a := by simp
  trans a b c := BitVec.lt_trans
  trichotomous a b hab hba := BitVec.le_antisymm (BitVec.not_lt.mp hba) (BitVec.not_lt.mp hab)

/-- The unsigned order of addresses. -/
instance : LinearOrder Word where
  le_refl := BitVec.le_refl
  le_trans _ _ _ := BitVec.le_trans
  le_antisymm _ _ := BitVec.le_antisymm
  le_total := BitVec.le_total
  toDecidableLE := inferInstance
  toDecidableLT := inferInstance
  lt_iff_le_not_ge a b := by
    rw [BitVec.not_le]
    exact ⟨fun h => ⟨BitVec.le_of_lt h, h⟩, And.right⟩

theorem word_trichotomy (a b : Word) : a < b ∨ a = b ∨ b < a :=
  Std.Trichotomous.rel_or_eq_or_rel_swap

/-- A fixnum: a signed integer of `n-positive-fixnum-bits` bits and a sign. -/
structure Fixnum where
  val : Int
  lower : -2 ^ nPositiveFixnumBits ≤ val
  upper : val < 2 ^ nPositiveFixnumBits
  deriving DecidableEq

namespace Fixnum

@[ext] theorem ext {a b : Fixnum} (h : a.val = b.val) : a = b := by
  cases a; cases b; simp_all

theorem val_injective : Function.Injective val := fun _ _ h => ext h

instance : LinearOrder Fixnum := LinearOrder.lift' val val_injective

/-- The untagged fixnum as a word. -/
def toWord (n : Fixnum) : Word := BitVec.ofInt nWordBits n.val

/-- `get-lisp-obj-address` of a fixnum: the value shifted over its tag, as an unsigned word. -/
def getLispObjAddress (n : Fixnum) : Word := BitVec.ofInt nWordBits (2 ^ nFixnumTagBits * n.val)

theorem getLispObjAddress_injective {a b : Fixnum} (h : a.getLispObjAddress = b.getLispObjAddress) :
    a = b := by
  apply Fixnum.ext
  have ha := a.lower
  have ha' := a.upper
  have hb := b.lower
  have hb' := b.upper
  have hi := congrArg BitVec.toInt h
  simp only [getLispObjAddress, nWordBits, nFixnumTagBits, nPositiveFixnumBits, BitVec.toInt_ofInt]
    at hi ha ha' hb hb'
  rw [Int.bmod_eq_of_le (by omega) (by omega), Int.bmod_eq_of_le (by omega) (by omega)] at hi
  omega

end Fixnum

end Sbcl
