import Mathlib.Tactic.Ring

/-!
# Fields of bits in a natural number

* `ldb`, `dpb` : the field of `size` bits at `position`, and a field put in place of another;
* `dpb_eq` : a field put above the bits that there are;
* `ldb_low`, `ldb_high` : two fields side by side;
* `neZero_octet` : the octets have numerals.
-/

namespace Sbcl.ByteSpec

open Nat

variable {m n newbyte position size : ℕ}

instance neZero_octet : NeZero 256 := ⟨by decide⟩

/-- `(ldb (byte size position) n)`. -/
def ldb (size position n : ℕ) : ℕ := n / 2 ^ position % 2 ^ size

/-- `(dpb newbyte (byte size position) n)`. -/
def dpb (newbyte size position n : ℕ) : ℕ :=
  n - ldb size position n * 2 ^ position + newbyte % 2 ^ size * 2 ^ position

theorem dpb_eq (h : n < 2 ^ (position + size)) :
    dpb newbyte size position n = n % 2 ^ position + newbyte % 2 ^ size * 2 ^ position := by
  have hdiv : n / 2 ^ position < 2 ^ size := by
    rw [Nat.div_lt_iff_lt_mul (Nat.two_pow_pos position), ← pow_add, Nat.add_comm size]
    exact h
  have hsplit := div_add_mod' n (2 ^ position)
  rw [dpb, ldb, mod_eq_of_lt hdiv]
  omega

theorem dpb_above (h : n < 2 ^ position) :
    dpb newbyte size position n = n + newbyte % 2 ^ size * 2 ^ position := by
  rw [dpb_eq (h.trans_le (Nat.pow_le_pow_right two_pos (Nat.le_add_right position size))),
    mod_eq_of_lt h]

theorem ldb_low (h : n < 2 ^ size) : ldb size 0 (n + m * 2 ^ size) = n := by
  rw [ldb, pow_zero, Nat.div_one, add_mul_mod_self_right, mod_eq_of_lt h]

theorem ldb_high (hn : n < 2 ^ position) (hm : m < 2 ^ size) :
    ldb size position (n + m * 2 ^ position) = m := by
  rw [ldb, add_mul_div_right _ _ (Nat.two_pow_pos position), div_eq_of_lt hn, Nat.zero_add,
    mod_eq_of_lt hm]

end Sbcl.ByteSpec
