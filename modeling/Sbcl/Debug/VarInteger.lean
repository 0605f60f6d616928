import Sbcl.Lib.ByteSpec

/-!
# Integers of variable length (code/debug-var-io.lisp)

* `readVarInteger`, `writeVarInteger` : octets of seven bits each, the lowest first, with a mark on
  those that more follow;
* `readVarInteger_write` : what is written is read back, with the octets after it untouched.

The octets of a vector from an offset on are a list. Nothing is returned where an error is
signalled: for a value that is no `(unsigned-byte 32)`, and for an integer that does not end.
-/

namespace Sbcl.VarInteger

open ByteSpec

abbrev Octet := Fin 256

/-- The loop of `read-var-integer` from the octet on that goes to the position `k` of the integer.
-/
def readLoop (k accum : ℕ) : List Octet → Option (ℕ × List Octet)
  | [] => none
  | octet :: rest =>
    let finalp := !octet.val.testBit 7
    let accum := if k = 0 then octet.val % 128 else ByteSpec.dpb octet.val 7 k accum
    if k = 28 ∧ ByteSpec.ldb 4 4 octet.val ≠ 0 then none
    else if finalp then some (accum, rest)
    else readLoop (k + 7) accum rest

def readVarInteger (source : List Octet) : Option (ℕ × List Octet) := readLoop 0 0 source

/-- The loop of `write-var-integer`, which pushes one octet at least. -/
def writeLoop (v : ℕ) : List Octet :=
  let vNext := v / 2 ^ 7
  Fin.ofNat 256 (ByteSpec.dpb (if vNext = 0 then 0 else 1) 1 7 (ByteSpec.ldb 7 0 v)) ::
    if vNext = 0 then [] else writeLoop vNext
termination_by v
decreasing_by
  show v / 2 ^ 7 < v
  omega

def writeVarInteger (value : ℕ) : Option (List Octet) :=
  if value < 2 ^ 32 then some (writeLoop value) else none

theorem writeLoop_eq (v : ℕ) :
    ∃ octet : Octet, octet.val = v % 128 + (if v / 128 = 0 then 0 else 128) ∧
      writeLoop v = octet :: if v / 128 = 0 then [] else writeLoop (v / 128) := by
  refine ⟨Fin.ofNat 256 (ByteSpec.dpb (if v / 2 ^ 7 = 0 then 0 else 1) 1 7 (ByteSpec.ldb 7 0 v)),
    ?_, by rw [writeLoop]; rfl⟩
  have hlow : ByteSpec.ldb 7 0 v = v % 128 := by
    rw [ByteSpec.ldb, pow_zero, Nat.div_one]
    rfl
  have hlt : v % 128 < 2 ^ 7 := Nat.mod_lt v (by decide)
  have hdpb : ByteSpec.dpb (if v / 2 ^ 7 = 0 then 0 else 1) 1 7 (ByteSpec.ldb 7 0 v) =
      v % 128 + if v / 128 = 0 then 0 else 128 := by
    rw [hlow, dpb_above hlt, show (2 : ℕ) ^ 7 = 128 from rfl]
    split <;> rfl
  rw [hdpb]
  refine Nat.mod_eq_of_lt ?_
  split <;> omega

/-- The loop reads on to the end of the integer, above the bits that it has. -/
theorem readLoop_write {v k accum : ℕ} (hk : k ≤ 28) (h7 : k % 7 = 0) (haccum : accum < 2 ^ k)
    (hv : v < 2 ^ (32 - k))
    (rest : List Octet) : readLoop k accum (writeLoop v ++ rest) =
      some (accum + v * 2 ^ k, rest) := by
  induction v using Nat.strong_induction_on generalizing k accum with
  | _ v ih =>
    obtain ⟨octet, hoctet, heq⟩ := writeLoop_eq v
    rw [heq, List.cons_append, readLoop]
    have hlow : (if k = 0 then octet.val % 128 else ByteSpec.dpb octet.val 7 k accum) =
        accum + v % 128 * 2 ^ k := by
      have hmod : octet.val % 128 = v % 128 := by
        rw [hoctet]
        split <;> omega
      split
      · subst k
        rw [pow_zero] at haccum ⊢
        omega
      · rw [dpb_above haccum]
        exact congrArg (fun n => accum + n * 2 ^ k) hmod
    have hfinal : octet.val.testBit 7 = !decide (v / 128 = 0) := by
      rw [Nat.testBit_eq_decide_div_mod_eq, hoctet]
      by_cases h0 : v / 128 = 0
      · rw [if_pos h0]
        simp [h0]
      rw [if_neg h0]
      have : (v % 128 + 128) / 2 ^ 7 % 2 = 1 := by omega
      rw [this, decide_eq_true rfl, decide_eq_false h0]
      rfl
    have hend : ¬(k = 28 ∧ ByteSpec.ldb 4 4 octet.val ≠ 0) := by
      rintro ⟨rfl, hne⟩
      have hv16 : v < 16 := hv
      apply hne
      rw [ByteSpec.ldb, hoctet, if_pos (by omega)]
      omega
    rw [if_neg hend, hlow, hfinal, Bool.not_not]
    by_cases h0 : v / 128 = 0
    · rw [if_pos (decide_eq_true h0), if_pos h0, List.nil_append, show v % 128 = v by omega]
    rw [if_neg (by simpa using h0), if_neg h0]
    have hk' : k ≤ 21 := by
      by_contra hlt
      obtain rfl : k = 28 := by omega
      omega
    have hpow : (2 : ℕ) ^ (k + 7) = 2 ^ k * 128 := pow_add 2 k 7
    have hbound : (2 : ℕ) ^ (32 - k) = 2 ^ (32 - (k + 7)) * 128 := by
      rw [show 32 - k = 32 - (k + 7) + 7 by omega, pow_add]
      rfl
    have haccum' : accum + v % 128 * 2 ^ k < 2 ^ (k + 7) := by
      have := Nat.mul_le_mul_right (2 ^ k) (show v % 128 ≤ 127 by omega)
      rw [hpow]
      omega
    rw [ih (v / 128) (by omega) (by omega) (by omega) haccum' (by omega),
      Option.some_inj, Prod.mk.injEq]
    refine ⟨?_, rfl⟩
    rw [hpow]
    conv_rhs => rw [← Nat.div_add_mod v 128]
    ring

theorem readVarInteger_write {v : ℕ} {octets : List Octet} (h : writeVarInteger v = some octets)
    (rest : List Octet) : readVarInteger (octets ++ rest) = some (v, rest) := by
  unfold writeVarInteger at h
  split at h
  · rw [← Option.some_inj.1 h, readVarInteger, readLoop_write (by decide) rfl (by decide) ‹_›]
    simp
  · cases h

theorem writeVarInteger_isSome {v : ℕ} {octets : List Octet} (h : writeVarInteger v = some octets) :
    v < 2 ^ 32 ∧ octets ≠ [] := by
  unfold writeVarInteger at h
  split at h
  · refine ⟨‹_›, ?_⟩
    obtain ⟨octet, -, heq⟩ := writeLoop_eq v
    rw [← Option.some_inj.1 h, heq]
    exact List.cons_ne_nil _ _
  · cases h

end Sbcl.VarInteger
