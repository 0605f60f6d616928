import Mathlib.Data.BitVec
import Mathlib.Tactic.Ring
import Sbcl.Object

/-!
# Hashing bit vectors (code/target-sxhash.lisp, code/string-hash.lisp)

* `wordMix`, `mixRemaining` : one step of the hash, with a whole word and with the last bits;
* `sxhashSimpleBitVector`, `sxhashBitVector` : the four ways of reading the words;
* `equal_sxhash` : the hash is one of the bits below the fill pointer only.
-/

namespace Sbcl.BitVectors

open List Nat BitVec

def nWordBytes : ℕ := 8

def mostPositiveWord : Word := BitVec.allOnes 64

def mostPositiveFixnum : Word := 2 ^ 62 - 1

/-- The bits of memory, from the first one of the data on. The length of the vector is before them.
-/
abbrev Memory := ℤ → Bool

def sapRefWord (sap : Memory) (byteOffset : ℤ) : Word :=
  (BitVec.ofBoolListLE ((List.range nWordBits).map fun k : ℕ =>
    sap (8 * byteOffset + k))).setWidth 64

def vectorRawBits (x : Memory) (i : ℕ) : Word := sapRefWord x (nWordBytes * i)

def wordMix (x y : Word) : Word :=
  let mul : Word := 3622009729038463111
  let xor : Word := 608948948376289905
  let xy := x * mul + y
  xor ^^^ xy ^^^ xy >>> 5

/-- The value that `with-hash` begins with. -/
def withHash (seed : ℕ) : Word := wordMix 410823708 (BitVec.ofNat 64 seed)

/-- `shift-towards-start`, by a count modulo the bits of a word -/
def shiftTowardsStart (word : Word) (count : ℤ) : Word := word >>> (count % nWordBits).toNat

def mixRemaining (nBitsRemaining : ℕ) (word result : Word) : Word :=
  wordMix (shiftTowardsStart mostPositiveWord (-nBitsRemaining) &&& word) result

/-- The words of the indices, mixed one after the other. -/
def mixWords (x : Memory) (indices : List ℕ) (result : Word) : Word :=
  (indices.map (vectorRawBits x)).foldl (fun result word => wordMix word result) result

def sxhashSimpleBitVector (x : Memory) (length : ℕ) : Word :=
  let nFullWords := length / nWordBits
  let nBitsRemaining := length % nWordBits
  let result := mixWords x (List.range nFullWords) (withHash length)
  let result :=
    if 0 < nBitsRemaining then mixRemaining nBitsRemaining (vectorRawBits x nFullWords) result
      else result
  result &&& mostPositiveFixnum

/-- A bit vector: the bits below the fill pointer are at a displacement in the data of a simple one.
-/
structure BitVector where
  data : Memory
  displacement : ℕ
  fillPointer : ℕ

variable (rest : Memory) (v w : BitVector)

/-- `copy-seq`: the bits behind those of the vector may be any. -/
def copySeq : Memory :=
  fun i => if 0 ≤ i ∧ i < v.fillPointer then v.data (v.displacement + i) else rest i

/-- The loop over the words, at any bytes. -/
def mixMiddleWords (sap : Memory) (byteOffset nBitsRemaining : ℕ) (result : Word) : ℕ × ℕ × Word :=
  if nBitsRemaining ≥ nWordBits then
    mixMiddleWords sap (byteOffset + nWordBytes) (nBitsRemaining - nWordBits)
      (wordMix (sapRefWord sap byteOffset) result)
  else (byteOffset, nBitsRemaining, result)
termination_by nBitsRemaining
decreasing_by simp only [nWordBits] at *; omega

def sxhashBitVector : Word :=
  let x := v.data
  let start := v.displacement
  let stop := v.displacement + v.fillPointer
  let startWord := start / nWordBits
  let startBit := start % nWordBits
  if startBit = 0 then
    let endWord := stop / nWordBits
    let nBitsRemaining := stop % nWordBits
    let result := mixWords x (List.range' startWord (endWord - startWord)) (withHash (stop - start))
    let result :=
      if 0 < nBitsRemaining then mixRemaining nBitsRemaining (vectorRawBits x endWord) result
        else result
    result &&& mostPositiveFixnum
  else if startBit &&& 7 = 0 then
    let (byteOffset, nBitsRemaining, result) :=
      mixMiddleWords x (start / 8) (stop - start) (withHash (stop - start))
    let result :=
      if 0 < nBitsRemaining then
        let nBytesRemaining := (nBitsRemaining + 7) / 8
        -- the bytes that are read before those that are wanted: maybe of the length of the vector
        let shiftOut := nWordBytes - nBytesRemaining
        let word := sapRefWord x (byteOffset + nBytesRemaining - nWordBytes) >>> (8 * shiftOut)
        mixRemaining nBitsRemaining word result
      else result
    result &&& mostPositiveFixnum
  else sxhashSimpleBitVector (copySeq rest v) v.fillPointer

/-- The two have the same bits. -/
def BitVector.Equal : Prop :=
  v.fillPointer = w.fillPointer ∧
    ∀ i < v.fillPointer, v.data (v.displacement + i) = w.data (w.displacement + i)

theorem getLsbD_sapRefWord (sap : Memory) (byteOffset : ℤ) (k : ℕ) :
    (sapRefWord sap byteOffset).getLsbD k = (decide (k < 64) && sap (8 * byteOffset + k)) := by
  rw [sapRefWord, getLsbD_setWidth, getLsbD_ofBoolListLE]
  by_cases hk : k < 64
  · rw [getD_eq_getElem?_getD, getElem?_map, getElem?_range (show k < nWordBits from hk)]
    rfl
  · rw [decide_eq_false hk, Bool.false_and, Bool.false_and]

/-- Only the bits that remain are mixed. -/
theorem mixRemaining_congr {n : ℕ} {a b : Word} (hpos : 0 < n) (hn : n < nWordBits)
    (h : ∀ k < n, a.getLsbD k = b.getLsbD k) (result : Word) :
    mixRemaining n a result = mixRemaining n b result := by
  rw [mixRemaining, mixRemaining]
  congr 1
  apply eq_of_getLsbD_eq
  intro k hk
  rw [shiftTowardsStart, mostPositiveWord, getLsbD_and, getLsbD_and, getLsbD_ushiftRight,
    getLsbD_allOnes]
  by_cases hkn : k < n
  · rw [h k hkn]
  · have : ¬((-(n : ℤ)) % nWordBits).toNat + k < 64 := by simp only [nWordBits] at *; omega
    rw [decide_eq_false this, Bool.false_and, Bool.false_and]

/-- The bits from a place on. -/
def shifted (x : Memory) (start : ℕ) : Memory := fun i => x (start + i)

theorem sapRefWord_shifted (x : Memory) (start : ℕ) (byteOffset : ℤ) :
    sapRefWord (shifted x (8 * start)) byteOffset = sapRefWord x (start + byteOffset) := by
  apply eq_of_getLsbD_eq
  intro k hk
  rw [getLsbD_sapRefWord, getLsbD_sapRefWord, shifted]
  congr 2
  push_cast
  ring

/-! ## The four ways -/

theorem sxhashSimple_congr {x y : Memory} {length : ℕ} (h : ∀ i : ℕ, i < length → x i = y i) :
    sxhashSimpleBitVector x length = sxhashSimpleBitVector y length := by
  have hbit : ∀ i k : ℕ, nWordBits * i + k < length → k < 64 →
      (vectorRawBits x i).getLsbD k = (vectorRawBits y i).getLsbD k := by
    intro i k hik hk
    have hplace : 8 * ((nWordBytes : ℤ) * i) + k = (nWordBits * i + k : ℕ) := by
      simp only [nWordBytes, nWordBits]; push_cast; ring
    rw [vectorRawBits, vectorRawBits, getLsbD_sapRefWord, getLsbD_sapRefWord, hplace, h _ hik]
  have hdiv := div_add_mod length nWordBits
  have hmod := Nat.mod_lt length (show 0 < nWordBits by decide)
  have hwords : (List.range (length / nWordBits)).map (vectorRawBits x) =
      (List.range (length / nWordBits)).map (vectorRawBits y) := by
    apply map_congr_left
    intro i hi
    apply eq_of_getLsbD_eq
    intro k hk
    have : nWordBits * (i + 1) ≤ nWordBits * (length / nWordBits) :=
      Nat.mul_le_mul_left _ (mem_range.1 hi)
    exact hbit i k (by rw [Nat.mul_add] at this; simp only [nWordBits] at *; omega) hk
  simp only [sxhashSimpleBitVector, mixWords, hwords]
  split
  case isFalse => rfl
  case isTrue hpos =>
    rw [mixRemaining_congr hpos hmod]
    intro k hk
    exact hbit _ k (by omega) (by simp only [nWordBits] at *; omega)

theorem mixMiddleWords_spec (sap : Memory) (byteOffset n : ℕ) (result : Word) :
    mixMiddleWords sap byteOffset n result =
      (byteOffset + nWordBytes * (n / nWordBits), n % nWordBits,
      mixWords (shifted sap (8 * byteOffset)) (List.range (n / nWordBits)) result) := by
  fun_induction mixMiddleWords sap byteOffset n result with
  | case1 byteOffset n result hge ih =>
    have hdiv : n / nWordBits = (n - nWordBits) / nWordBits + 1 := div_eq_sub_div (by decide) hge
    have hmod : n % nWordBits = (n - nWordBits) % nWordBits := mod_eq_sub_mod hge
    rw [ih, hdiv, hmod, range_succ_eq_map, mixWords, mixWords, map_cons, foldl_cons, map_map]
    have hword : ∀ i : ℕ, vectorRawBits (shifted sap (8 * (byteOffset + nWordBytes))) i =
        vectorRawBits (shifted sap (8 * byteOffset)) (i + 1) := by
      intro i
      rw [vectorRawBits, vectorRawBits, sapRefWord_shifted, sapRefWord_shifted]
      congr 1
      push_cast
      ring
    have hfirst : vectorRawBits (shifted sap (8 * byteOffset)) 0 = sapRefWord sap byteOffset := by
      rw [vectorRawBits, sapRefWord_shifted]
      simp
    rw [hfirst, map_congr_left (g := vectorRawBits (shifted sap (8 * byteOffset)) ∘ Nat.succ)
      fun i _ => hword i]
    congr 1
    ring
  | case2 byteOffset n result hlt =>
    have hlt : n < nWordBits := Nat.lt_of_not_ge hlt
    rw [div_eq_of_lt hlt, mod_eq_of_lt hlt]
    rfl

theorem word_aligned (hstart : v.displacement % nWordBits = 0) :
    sxhashBitVector rest v =
      sxhashSimpleBitVector (shifted v.data v.displacement) v.fillPointer := by
  obtain ⟨a, ha⟩ := dvd_of_mod_eq_zero hstart
  have hword :
      ∀ i : ℕ, vectorRawBits v.data (a + i) = vectorRawBits (shifted v.data v.displacement) i := by
    intro i
    have : v.displacement = 8 * (nWordBytes * a) := by rw [ha, nWordBytes, nWordBits]; ring
    rw [vectorRawBits, vectorRawBits, this, sapRefWord_shifted]
    congr 1
    push_cast
    ring
  have hdiv : (v.displacement + v.fillPointer) / nWordBits = a + v.fillPointer / nWordBits := by
    rw [ha, mul_add_div (by decide)]
  have hmod : (v.displacement + v.fillPointer) % nWordBits = v.fillPointer % nWordBits := by
    rw [ha, mul_add_mod]
  have hfirst : v.displacement / nWordBits = a := by rw [ha, Nat.mul_div_cancel_left _ (by decide)]
  have hwords : vectorRawBits v.data ∘ (a + ·) = vectorRawBits (shifted v.data v.displacement) :=
    funext hword
  simp only [sxhashBitVector, if_pos hstart, hdiv, hmod, hfirst, Nat.add_sub_cancel_left,
    sxhashSimpleBitVector, mixWords, range'_eq_map_range, map_map, hword, hwords]

theorem byte_aligned (hstart : v.displacement % nWordBits ≠ 0)
    (hbyte : v.displacement % nWordBits &&& 7 = 0) :
    sxhashBitVector rest v =
      sxhashSimpleBitVector (shifted v.data v.displacement) v.fillPointer := by
  have hdvd : v.displacement = 8 * (v.displacement / 8) := by
    have : v.displacement % nWordBits &&& 7 = v.displacement % nWordBits % 8 :=
      and_two_pow_sub_one_eq_mod _ 3
    simp only [nWordBits] at *
    omega
  rw [sxhashBitVector]
  simp only [if_neg hstart, if_pos hbyte, mixMiddleWords_spec, Nat.add_sub_cancel_left, ← hdvd,
    sxhashSimpleBitVector]
  have hmod := Nat.mod_lt v.fillPointer (show 0 < nWordBits by decide)
  split
  case isFalse => rfl
  case isTrue hpos =>
    rw [mixRemaining_congr hpos hmod]
    intro k hk
    have hshift : 8 * (nWordBytes - (v.fillPointer % nWordBits + 7) / 8) + k < 64 := by
      simp only [nWordBytes, nWordBits] at *; omega
    rw [getLsbD_ushiftRight, getLsbD_sapRefWord, vectorRawBits, getLsbD_sapRefWord, shifted,
      decide_eq_true hshift, decide_eq_true (show k < 64 by simp only [nWordBits] at *; omega)]
    congr 2
    simp only [nWordBytes, nWordBits] at *
    omega

theorem sxhashBitVector_eq :
    sxhashBitVector rest v =
      sxhashSimpleBitVector (shifted v.data v.displacement) v.fillPointer := by
  by_cases hword : v.displacement % nWordBits = 0
  · exact word_aligned rest v hword
  by_cases hbyte : v.displacement % nWordBits &&& 7 = 0
  · exact byte_aligned rest v hword hbyte
  rw [sxhashBitVector]
  simp only [if_neg hword, if_neg hbyte]
  apply sxhashSimple_congr
  intro i hi
  rw [copySeq, if_pos ⟨Int.natCast_nonneg i, by exact_mod_cast hi⟩, shifted]

/-- Vectors with the same bits have the same hash, wherever their bits are and whatever is around
them; a simple one also by the function for simple ones. -/
theorem equal_sxhash (rest' : Memory) (h : v.Equal w) :
    sxhashBitVector rest v = sxhashBitVector rest' w ∧
      (w.displacement = 0 → sxhashSimpleBitVector w.data w.fillPointer =
        sxhashBitVector rest v) := by
  have hshifted : sxhashSimpleBitVector (shifted v.data v.displacement) v.fillPointer =
      sxhashSimpleBitVector (shifted w.data w.displacement) w.fillPointer := by
    rw [← h.1]
    exact sxhashSimple_congr h.2
  refine ⟨by rw [sxhashBitVector_eq, sxhashBitVector_eq, hshifted], fun hsimple => ?_⟩
  rw [sxhashBitVector_eq, hshifted, hsimple]
  exact sxhashSimple_congr fun i _ => by rw [shifted, cast_zero, zero_add]

theorem equal_sxhash_ones :
    sxhashBitVector (fun _ => true) ⟨fun _ => true, 8, 3⟩ =
      sxhashBitVector (fun _ => false) ⟨fun i => decide (i < 3), 0, 3⟩ :=
  (equal_sxhash (fun _ => true) ⟨fun _ => true, 8, 3⟩ ⟨fun i => decide (i < 3), 0,
    3⟩ (fun _ => false) ⟨rfl, fun i (hi : i < 3) => by simp [hi]⟩).1

end Sbcl.BitVectors
