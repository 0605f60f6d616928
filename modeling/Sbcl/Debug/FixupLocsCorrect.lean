import Mathlib.Data.Nat.Digits.Defs
import Sbcl.Lib.Memory
import Sbcl.Debug.FixupLocs

/-!
# The round trip of fixup locations

* `deltaOctets` : the octets of a list of locations, and `streams`, those of three lists with all
  delimiters;
* `Stored` of the streams in the bytes of the packed integer, whose high zeros are the delimiters
  that were left out;
* `decodeLoop_deltas`, `applyStream_deltas` : what the two decoders read from such bytes;
* `fixupLocs_round_trip` : when the lists come back, and that both decoders stop at the same places.
-/

namespace Sbcl.VarInteger

open ByteSpec Memory
open List (forall_mem_cons length_append length_cons length_singleton)
open Option (bind_eq_some_iff bind_some map_some)

/-! ## One integer -/

variable {shift : ℕ}

theorem or_octet {octet acc : ℕ} (hacc : acc < 2 ^ shift) :
    acc ||| (octet &&& 0x7f) <<< shift = acc + octet % 128 * 2 ^ shift := by
  have hmask : octet &&& 0x7f = octet % 128 := Nat.and_two_pow_sub_one_eq_mod octet 7
  rw [hmask, Nat.or_comm, ← Nat.shiftLeft_add_eq_or_of_lt hacc, Nat.shiftLeft_eq, Nat.add_comm]

theorem writeLoop_cases (v : ℕ) :
    (v < 128 ∧ ∃ octet : Octet, octet.val = v ∧ writeLoop v = [octet]) ∨
    (128 ≤ v ∧ ∃ octet : Octet, octet.val = v % 128 + 128 ∧
      writeLoop v = octet :: writeLoop (v / 128)) := by
  obtain ⟨octet, hoctet, heq⟩ := writeLoop_eq v
  by_cases h0 : v / 128 = 0
  · rw [if_pos h0] at hoctet heq
    exact .inl ⟨by omega, octet, by omega, heq⟩
  · rw [if_neg h0] at hoctet heq
    exact .inr ⟨by omega, octet, hoctet, heq⟩

variable {n : ℕ}

theorem testBit_last (h : n < 128) : n.testBit 7 = false := Nat.testBit_lt_two_pow h

theorem testBit_more (n : ℕ) : (n % 128 + 128).testBit 7 = true := by
  rw [Nat.testBit_eq_decide_div_mod_eq, decide_eq_true_eq]
  omega

theorem accum_split (v acc shift : ℕ) : acc + v % 128 * 2 ^ shift + v / 128 * 2 ^ (shift + 7) =
    acc + v * 2 ^ shift := by
  rw [pow_add]
  conv_rhs => rw [← Nat.div_add_mod v 128]
  ring

theorem accum_lt {v acc : ℕ} (hacc : acc < 2 ^ shift) :
    acc + v % 128 * 2 ^ shift < 2 ^ (shift + 7) := by
  have := Nat.mul_le_mul_right (2 ^ shift) (show v % 128 ≤ 127 by omega)
  rw [pow_add]
  omega

theorem rest_lt {v : ℕ} (hv : v < 2 ^ (32 - shift)) (h : 128 ≤ v) :
    shift + 7 < 32 ∧ v / 128 < 2 ^ (32 - (shift + 7)) := by
  have hshift : 7 < 32 - shift := by
    by_contra hle
    have := hv.trans_le (Nat.pow_le_pow_right two_pos (not_lt.1 hle))
    omega
  refine ⟨by omega, ?_⟩
  rw [Nat.div_lt_iff_lt_mul (by decide), show (128 : ℕ) = 2 ^ 7 from rfl, ← pow_add,
    show 32 - (shift + 7) + 7 = 32 - shift by omega]
  exact hv

theorem length_writeLoop_pos (v : ℕ) : 0 < (writeLoop v).length := by
  obtain ⟨octet, -, heq⟩ := writeLoop_eq v
  rw [heq]
  exact Nat.succ_pos _

/-- The bytes of a list of octets. -/
def bytes (octets : List Octet) : List ℕ := octets.map Fin.val

theorem bytes_append (octets octets' : List Octet) : bytes (octets ++ octets') = bytes octets ++
    bytes octets' := List.map_append

theorem bytes_nil : bytes [] = [] := rfl

theorem length_bytes (octets : List Octet) : (bytes octets).length = octets.length :=
  List.length_map ..

section Lisp
variable {integer i shift acc prev v : ℕ}

/-- The bytes of an integer. -/
def byteAt (integer i : ℕ) : ℕ := ByteSpec.ldb 8 (8 * i) integer

/-- What the loop does once it has read an integer. -/
def decodeNext (integer pos prev v : ℕ) : Option (List ℕ × ℕ) :=
  if v = 0 then some ([], pos)
  else if prev + v < locLimit then
    (decodeLoop integer pos 0 0 (prev + v)).map fun (locs, pos) => ((prev + v) :: locs, pos)
  else none

theorem decodeLoop_write (hacc : acc < 2 ^ shift) (hv : v < 2 ^ (32 - shift)) (hshift : shift < 32)
    (h : Stored (byteAt integer) i (bytes (writeLoop v))) :
    decodeLoop integer (8 * i) shift acc prev =
      if 8 * (i + (writeLoop v).length) < bytePosLimit then
        decodeNext integer (8 * (i + (writeLoop v).length)) prev (acc + v * 2 ^ shift)
      else none := by
  induction v using Nat.strong_induction_on generalizing i shift acc with
  | _ v ih =>
    have hword : ∀ octet : ℕ, (octet &&& 0x7f) <<< shift &&& mostPositiveWord =
        (octet &&& 0x7f) <<< shift := by
      intro octet
      have hlt : (octet &&& 0x7f) <<< shift < 2 ^ 64 := by
        rw [Nat.shiftLeft_eq]
        have h1 : octet &&& 0x7f ≤ 127 := Nat.and_le_right
        have h2 : 2 ^ shift ≤ 2 ^ 32 := Nat.pow_le_pow_right two_pos hshift.le
        have := Nat.mul_le_mul h1 h2
        omega
      exact (Nat.and_two_pow_sub_one_eq_mod _ 64).trans (Nat.mod_eq_of_lt hlt)
    rcases writeLoop_cases v with ⟨hlast, octet, hoctet, heq⟩ | ⟨hmore, octet, hoctet, heq⟩
    · rw [heq] at h ⊢
      have hbyte : ByteSpec.ldb 8 (8 * i) integer = v := h.head.trans hoctet
      have hend : 8 * i + 8 = 8 * (i + 1) := by ring
      rw [decodeLoop]
      rw [hbyte, hword, or_octet hacc, testBit_last hlast, Nat.mod_eq_of_lt hlast, hend]
      rfl
    · rw [heq] at h ⊢
      obtain ⟨hbyte, hrest⟩ := stored_cons.1 h
      replace hbyte : ByteSpec.ldb 8 (8 * i) integer = v % 128 + 128 := hbyte.trans hoctet
      obtain ⟨hshift', hv'⟩ := rest_lt hv hmore
      have hend : 8 * i + 8 = 8 * (i + 1) := by ring
      have hlow : (v % 128 + 128) % 128 = v % 128 := by omega
      rw [decodeLoop]
      rw [hbyte, hword, or_octet hacc, testBit_more, hlow, hend, if_pos rfl,
        if_pos (show shift + 7 < 64 by omega),
        ih (v / 128) (by omega) (accum_lt hacc) hv' hshift' hrest, accum_split, length_cons,
        show i + 1 + (writeLoop (v / 128)).length = i + ((writeLoop (v / 128)).length + 1) by ring]
      by_cases hpos : 8 * (i + 1) < bytePosLimit
      · rw [if_pos hpos]
      · rw [if_neg hpos, if_neg (by omega)]

end Lisp

/-! ## A list of locations -/

/-- The list increases strictly from above `prev` on. -/
def Increasing (prev : ℕ) (l : List ℕ) : Prop := (prev :: l).Pairwise (· < ·)

/-- The octets of the differences. -/
def deltaOctets (prev : ℕ) : List ℕ → List Octet
  | [] => []
  | x :: l => writeLoop (x - prev) ++ deltaOctets x l

/-- Each difference has 32 bits. -/
def DeltasFit (prev : ℕ) : List ℕ → Prop
  | [] => True
  | x :: l => x - prev < 2 ^ 32 ∧ DeltasFit x l

variable {prev : ℕ}

theorem increasing_cons {x : ℕ} {l : List ℕ} (h : Increasing prev (x :: l)) : prev < x ∧
    Increasing x l := by
  obtain ⟨h1, h2⟩ := List.pairwise_cons.1 h
  exact ⟨h1 x List.mem_cons_self, h2⟩

theorem deltasFit_of_lt {l : List ℕ} (h : ∀ x ∈ l, x < 2 ^ 32) : DeltasFit prev l := by
  induction l generalizing prev with
  | nil => trivial
  | cons x l ih =>
    rw [forall_mem_cons] at h
    exact ⟨(Nat.sub_le _ _).trans_lt h.1, ih h.2⟩

variable {octets : List Octet}

theorem packLoop_eq_some {l : List ℕ} (hl : Increasing prev l) :
    packLoop prev l = some octets ↔ DeltasFit prev l ∧ octets = deltaOctets prev l := by
  induction l generalizing prev octets with
  | nil => simp [packLoop, DeltasFit, deltaOctets, eq_comm]
  | cons x l ih =>
    obtain ⟨hx, hl⟩ := increasing_cons hl
    unfold packLoop writeVarInteger
    rw [if_pos hx]
    by_cases hfit : x - prev < 2 ^ 32
    · have hcons : DeltasFit prev (x :: l) ↔ DeltasFit x l := and_iff_right hfit
      rw [if_pos hfit, hcons]
      show ((packLoop x l).bind fun rest => some (writeLoop (x - prev) ++ rest)) = _ ↔ _
      constructor
      · intro h
        obtain ⟨rest, hrest, heq⟩ := bind_eq_some_iff.1 h
        obtain ⟨hfit', rfl⟩ := (ih hl).1 hrest
        exact ⟨hfit', (Option.some.inj heq).symm⟩
      · rintro ⟨hfit', rfl⟩
        rw [(ih hl).2 ⟨hfit', rfl⟩]
        rfl
    · rw [if_neg hfit]
      exact iff_of_false (fun h => nomatch h) fun h => hfit h.1.1

theorem pack_eq_some {l : List ℕ} (hl : Increasing 0 l) :
    pack l = some octets ↔ DeltasFit 0 l ∧ octets = deltaOctets 0 l := by
  have hsort : l.mergeSort (fun x y => decide (x ≤ y)) = l := by
    apply List.mergeSort_of_pairwise
    exact (List.pairwise_cons.1 hl).2.imp fun h => decide_eq_true h.le
  unfold pack
  rw [hsort]
  exact packLoop_eq_some hl

theorem writeLoop_zero : bytes (writeLoop 0) = [0] := by
  rcases writeLoop_cases 0 with ⟨-, octet, hoctet, heq⟩ | ⟨h, -⟩
  · rw [heq]
    exact congrArg (· :: []) hoctet
  · exact absurd h (by decide)

theorem packAfter_eq_some {l : List ℕ} (hl : Increasing 0 l) :
    packAfter l = some octets ↔ DeltasFit 0 l ∧ octets = writeLoop 0 ++ deltaOctets 0 l := by
  unfold packAfter writeVarInteger
  rw [if_pos (by decide)]
  show ((pack l).bind fun octets => some (writeLoop 0 ++ octets)) = _ ↔ _
  constructor
  · intro h
    obtain ⟨rest, hrest, heq⟩ := bind_eq_some_iff.1 h
    obtain ⟨hfit, rfl⟩ := (pack_eq_some hl).1 hrest
    exact ⟨hfit, (Option.some.inj heq).symm⟩
  · rintro ⟨hfit, rfl⟩
    rw [(pack_eq_some hl).2 ⟨hfit, rfl⟩]
    rfl

/-! ## The bytes of the integer -/

theorem integerFromOctetsLoop_eq {result : ℕ} (h : result < 2 ^ shift) :
    integerFromOctetsLoop result shift octets =
      result + Nat.ofDigits 256 (bytes octets) * 2 ^ shift := by
  induction octets generalizing result shift with
  | nil => simp [integerFromOctetsLoop, bytes]
  | cons byte octets ih =>
    have hor : result ||| byte.val <<< shift = result + byte.val * 2 ^ shift := by
      rw [Nat.or_comm, ← Nat.shiftLeft_add_eq_or_of_lt h, Nat.shiftLeft_eq, Nat.add_comm]
    have hlt : result + byte.val * 2 ^ shift < 2 ^ (shift + 8) := by
      have := Nat.mul_le_mul_right (2 ^ shift) (show byte.val ≤ 255 by omega)
      rw [pow_add]
      omega
    have hdigits : Nat.ofDigits 256 (bytes (byte :: octets)) =
        byte.val + 256 * Nat.ofDigits 256 (bytes octets) :=
      Nat.ofDigits_cons
    rw [integerFromOctetsLoop, hor, ih hlt, hdigits, pow_add]
    ring

theorem byteAt_ofDigits {l : List ℕ} (hl : ∀ x ∈ l, x < 256) :
    Stored (byteAt (Nat.ofDigits 256 l)) 0 l := by
  induction l with
  | nil => exact stored_nil
  | cons x l ih =>
    rw [forall_mem_cons] at hl
    have hdigits : Nat.ofDigits 256 (x :: l) = x + 256 * Nat.ofDigits 256 l := Nat.ofDigits_cons
    rw [stored_cons]
    constructor
    · unfold byteAt ByteSpec.ldb
      rw [hdigits, Nat.mul_zero, pow_zero, Nat.div_one]
      omega
    apply (ih hl.2).move
    intro m _
    have hpow : (2 : ℕ) ^ (8 * (0 + 1 + m)) = 256 * 2 ^ (8 * (0 + m)) := by
      rw [show 8 * (0 + 1 + m) = 8 + 8 * (0 + m) by ring, pow_add]
      rfl
    unfold byteAt ByteSpec.ldb
    rw [hdigits, hpow, ← Nat.div_div_eq_div_mul, Nat.add_mul_div_left _ _ (by decide),
      Nat.div_eq_of_lt hl.1, Nat.zero_add]

theorem stored_integerFromOctets (octets : List Octet) (k : ℕ) :
    Stored (byteAt (integerFromOctets octets)) 0 (bytes octets ++ List.replicate k 0) := by
  have hbytes : ∀ x ∈ bytes octets ++ List.replicate k 0, x < 256 := by
    intro x hx
    rcases List.mem_append.1 hx with hx | hx
    · obtain ⟨octet, -, rfl⟩ := List.mem_map.1 hx
      exact octet.isLt
    · rw [List.eq_of_mem_replicate hx]
      decide
  have heq : integerFromOctets octets = Nat.ofDigits 256 (bytes octets ++ List.replicate k 0) := by
    rw [Nat.ofDigits_append_replicate_zero, integerFromOctets, integerFromOctetsLoop_eq (by decide)]
    ring
  rw [heq]
  exact byteAt_ofDigits hbytes

/-- The bytes of three lists, each with its delimiter. -/
def streams (l1 l2 l3 : List ℕ) : List ℕ :=
  (bytes (deltaOctets 0 l1) ++ [0]) ++
    ((bytes (deltaOctets 0 l2) ++ [0]) ++ (bytes (deltaOctets 0 l3) ++ [0]))

theorem packCodeFixupLocs_spec {l1 l2 l3 : List ℕ} (h1 : Increasing 0 l1) (h2 : Increasing 0 l2)
    (h3 : Increasing 0 l3) (h : packCodeFixupLocs l1 l2 l3 = some n) :
    (DeltasFit 0 l1 ∧ DeltasFit 0 l2 ∧ DeltasFit 0 l3) ∧
    Stored (byteAt n) 0 (streams l1 l2 l3) := by
  obtain ⟨bytes1, hbytes1, h⟩ := bind_eq_some_iff.1 h
  obtain ⟨bytes2, hbytes2, h⟩ := bind_eq_some_iff.1 h
  obtain ⟨bytes3, hbytes3, h⟩ := bind_eq_some_iff.1 h
  rw [Option.some_inj] at h
  subst h
  obtain ⟨hfit1, rfl⟩ := (pack_eq_some h1).1 hbytes1
  unfold packWhen at hbytes2 hbytes3
  unfold streams
  by_cases h3nil : l3 = []
  · subst h3nil
    rw [if_neg (by simp)] at hbytes3
    obtain rfl := Option.some.inj hbytes3
    by_cases h2nil : l2 = []
    · subst h2nil
      rw [if_neg (by simp)] at hbytes2
      obtain rfl := Option.some.inj hbytes2
      refine ⟨⟨hfit1, trivial, trivial⟩, ?_⟩
      have := stored_integerFromOctets (deltaOctets 0 l1 ++ [] ++ []) 3
      simpa [bytes_append, bytes_nil, deltaOctets, List.replicate] using this
    · rw [if_pos (.inl h2nil)] at hbytes2
      obtain ⟨hfit2, rfl⟩ := (packAfter_eq_some h2).1 hbytes2
      refine ⟨⟨hfit1, hfit2, trivial⟩, ?_⟩
      have := stored_integerFromOctets (deltaOctets 0 l1 ++
        (writeLoop 0 ++ deltaOctets 0 l2) ++ []) 2
      simpa [bytes_append, bytes_nil, writeLoop_zero, deltaOctets, List.replicate] using this
  · rw [if_pos (.inr h3nil)] at hbytes2
    rw [if_pos h3nil] at hbytes3
    obtain ⟨hfit2, rfl⟩ := (packAfter_eq_some h2).1 hbytes2
    obtain ⟨hfit3, rfl⟩ := (packAfter_eq_some h3).1 hbytes3
    refine ⟨⟨hfit1, hfit2, hfit3⟩, ?_⟩
    have := stored_integerFromOctets (deltaOctets 0 l1 ++ (writeLoop 0 ++ deltaOctets 0 l2) ++
      (writeLoop 0 ++ deltaOctets 0 l3)) 1
    simpa [bytes_append, writeLoop_zero, List.replicate] using this

theorem packCodeFixupLocs_isSome {l1 l2 l3 : List ℕ} (h1 : Increasing 0 l1) (h2 : Increasing 0 l2)
    (h3 : Increasing 0 l3)
    (hfit1 : DeltasFit 0 l1) (hfit2 : DeltasFit 0 l2) (hfit3 : DeltasFit 0 l3) :
    ∃ n, packCodeFixupLocs l1 l2 l3 = some n := by
  unfold packCodeFixupLocs packWhen
  rw [(pack_eq_some h1).2 ⟨hfit1, rfl⟩, (packAfter_eq_some h2).2 ⟨hfit2, rfl⟩,
    (packAfter_eq_some h3).2 ⟨hfit3, rfl⟩]
  split <;> split <;> exact ⟨_, rfl⟩

/-- The locations are in bounds, and the position after them. -/
def Decodes (i : ℕ) (l : List ℕ) (len : ℕ) : Prop :=
  (∀ x ∈ l, x < locLimit) ∧ 8 * (i + len) < bytePosLimit

instance (i : ℕ) (l : List ℕ) (len : ℕ) : Decidable (Decodes i l len) :=
  inferInstanceAs (Decidable (_ ∧ _))

theorem decodeLoop_deltas {i : ℕ} {l : List ℕ} (hl : Increasing prev l) (hfit : DeltasFit prev l)
    (h : Stored (byteAt n) i (bytes (deltaOctets prev l) ++ [0])) : decodeLoop n (8 * i) 0 0 prev =
      if Decodes i l ((deltaOctets prev l).length + 1) then some (l,
        8 * (i + ((deltaOctets prev l).length + 1))) else none := by
  induction l generalizing i prev with
  | nil =>
    have hlen : (writeLoop 0).length = 1 := by rw [← length_bytes, writeLoop_zero, length_singleton]
    have hzero : Stored (byteAt n) i (bytes (writeLoop 0)) := by
      rw [writeLoop_zero]
      exact h
    rw [decodeLoop_write (by decide) (by decide) (by decide) hzero, hlen]
    simp [Decodes, decodeNext, deltaOctets]
  | cons x l ih =>
    obtain ⟨hx, hl⟩ := increasing_cons hl
    obtain ⟨hfitx, hfit⟩ := hfit
    rw [deltaOctets, bytes_append, List.append_assoc] at h
    have hrest := h.right
    rw [length_bytes] at hrest
    rw [decodeLoop_write (by decide) hfitx (by decide) h.left, deltaOctets, length_append]
    have hprev : prev + (0 + (x - prev) * 2 ^ 0) = x := by omega
    have hnext : ∀ pos, decodeNext n pos prev (0 + (x - prev) * 2 ^ 0) =
        if x < locLimit then (decodeLoop n pos 0 0 x).map fun (locs, pos) =>
          (x :: locs, pos) else none := by
      intro pos
      unfold decodeNext
      rw [if_neg (by omega), hprev]
    have hdecodes :
      Decodes i (x :: l) ((writeLoop (x - prev)).length + (deltaOctets x l).length + 1) ↔
        x < locLimit ∧
        Decodes (i + (writeLoop (x - prev)).length) l ((deltaOctets x l).length + 1) := by
      unfold Decodes
      rw [forall_mem_cons, and_assoc, ← Nat.add_assoc, ← Nat.add_assoc, ← Nat.add_assoc]
    rw [hnext, ih hl hfit hrest]
    by_cases hloc : x < locLimit
    · rw [if_pos hloc]
      by_cases hd : Decodes (i + (writeLoop (x - prev)).length) l ((deltaOctets x l).length + 1)
      · rw [if_pos hd, if_pos (hdecodes.2 ⟨hloc, hd⟩), if_pos (by have := hd.2; omega)]
        simp only [map_some, Nat.add_assoc]
      · rw [if_neg hd, if_neg (fun h => hd (hdecodes.1 h).2)]
        split <;> rfl
    · rw [if_neg hloc, if_neg (fun h => hloc (hdecodes.1 h).1)]
      split <;> rfl

/-! ## The reader of the runtime -/

section Runtime
variable {u : VarintUnpacker} {i v acc shift prev : ℕ} {l : List ℕ}

/-- Nothing but zeros lies beyond the limit. -/
def Bounded (u : VarintUnpacker) : Prop := ∀ j, u.data j ≠ 0 → j < u.limit

theorem writeLoop_le_limit (hu : Bounded u) (hv : 0 < v)
    (h : Stored u.data i (bytes (writeLoop v))) : i + (writeLoop v).length ≤ u.limit := by
  induction v using Nat.strong_induction_on generalizing i with
  | _ v ih =>
    rcases writeLoop_cases v with ⟨hlast, octet, hoctet, heq⟩ | ⟨hmore, octet, hoctet, heq⟩
    · rw [heq] at h ⊢
      have hbyte : u.data i = v := h.head.trans hoctet
      exact hu i (by omega)
    rw [heq] at h ⊢
    have := ih (v / 128) (by omega) (by omega) (stored_cons.1 h).2
    rw [length_cons]
    omega

theorem varintUnpackLoop_write (hu : Bounded u) (hindex : u.index = i) (hacc : acc < 2 ^ shift)
    (hv : v < 2 ^ (32 - shift))
    (hshift : shift < 32) (h : Stored u.data i (bytes (writeLoop v))) :
    varintUnpackLoop u acc shift =
      some (acc + v * 2 ^ shift, { u with index := i + (writeLoop v).length }) := by
  induction v using Nat.strong_induction_on generalizing u i shift acc with
  | _ v ih =>
    have hsum : acc + v * 2 ^ shift < 2 ^ 32 := by
      have hpow : (2 : ℕ) ^ (32 - shift) * 2 ^ shift = 2 ^ 32 := by
        rw [← pow_add, Nat.sub_add_cancel hshift.le]
      have := Nat.mul_le_mul_right (2 ^ shift) (Nat.succ_le_of_lt hv)
      rw [hpow, Nat.succ_mul] at this
      omega
    rcases writeLoop_cases v with ⟨hlast, octet, hoctet, heq⟩ | ⟨hmore, octet, hoctet, heq⟩
    · rw [heq] at h ⊢
      have hbyte : u.data u.index = v := by
        rw [hindex]
        exact h.head.trans hoctet
      rw [varintUnpackLoop]
      rw [hbyte, or_octet hacc, testBit_last hlast, Nat.mod_eq_of_lt hlast,
        Nat.mod_eq_of_lt hsum, hindex]
      rfl
    · rw [heq] at h ⊢
      obtain ⟨hbyte, hrest⟩ := stored_cons.1 h
      replace hbyte : u.data u.index = v % 128 + 128 := by
        rw [hindex]
        exact hbyte.trans hoctet
      obtain ⟨hshift', hv'⟩ := rest_lt hv hmore
      have hlow : (v % 128 + 128) % 128 = v % 128 := by omega
      have hsplit := accum_split v acc shift
      have hlimit := writeLoop_le_limit hu (by omega) hrest
      have hlen := length_writeLoop_pos (v / 128)
      rw [varintUnpackLoop, hbyte, or_octet hacc, testBit_more, hlow, Nat.mod_eq_of_lt (by omega),
        if_neg (by simp), if_pos (by omega),
        @ih (v / 128) (by omega) { u with index := u.index + 1 } (i + 1) _ _ hu (by rw [hindex])
          (accum_lt hacc) hv' hshift' hrest,
        hsplit, length_cons, show i + 1 + (writeLoop (v / 128)).length =
          i + ((writeLoop (v / 128)).length + 1) by ring]

/-- The index is at the place `i`, or at the limit where there is nothing from it on. -/
def AtPlace (u : VarintUnpacker) (i : ℕ) : Prop := u.index = min i u.limit

theorem varintUnpack_write (hu : Bounded u) (hat : AtPlace u i) (hpos : 0 < v) (hv : v < 2 ^ 32)
    (h : Stored u.data i (bytes (writeLoop v))) :
    varintUnpack u = some (some v, { u with index := i + (writeLoop v).length }) ∧
    i + (writeLoop v).length ≤ u.limit := by
  have hlimit := writeLoop_le_limit hu hpos h
  have hlen := length_writeLoop_pos v
  have hindex : u.index = i := hat.trans (min_eq_left (by omega))
  refine ⟨?_, hlimit⟩
  unfold varintUnpack
  rw [if_neg (by omega), varintUnpackLoop_write hu hindex (by decide) hv (by decide) h]
  simp

theorem varintUnpack_zero (hat : AtPlace u i) (h : u.data i = 0) :
    ∃ result ∈ [none, some 0],
      varintUnpack u = some (result, { u with index := min (i + 1) u.limit }) := by
  unfold varintUnpack AtPlace at *
  by_cases hi : u.limit ≤ i
  · refine ⟨none, by simp, ?_⟩
    rw [min_eq_right hi] at hat
    rw [if_pos hat.ge, min_eq_right (hi.trans (Nat.le_succ i))]
    cases u
    exact congrArg (fun n => some (none, VarintUnpacker.mk _ n _)) hat
  · refine ⟨some 0, by simp, ?_⟩
    rw [min_eq_left (by omega)] at hat
    subst hat
    have hloop : varintUnpackLoop u 0 0 = some (0, { u with index := u.index + 1 }) := by
      rw [varintUnpackLoop, h]
      rfl
    rw [if_neg hi, hloop, min_eq_left (by omega)]
    rfl

theorem applyStream_eq (u : VarintUnpacker) (prev : ℕ) :
    applyStream u prev = (varintUnpack u).bind fun
      | (none, u') => some ([], u')
      | (some loc, u') =>
        if loc ≠ 0 then (applyStream u' ((loc + prev) % 2 ^ 32)).map fun (locs, u') =>
          ((loc + prev) % 2 ^ 32 :: locs, u')
        else some ([], u') := by
  rw [applyStream]
  split <;> rename_i h <;> rw [h] <;> rfl

theorem skipDataStream_eq (u : VarintUnpacker) : skipDataStream u = (varintUnpack u).bind fun
      | (none, u') => some u'
      | (some val, u') => if val ≠ 0 then skipDataStream u' else some u' := by
  rw [skipDataStream]
  split <;> rename_i h <;> rw [h] <;> rfl

theorem stream_deltas (hu : Bounded u) (hat : AtPlace u i) (hl : Increasing prev l)
    (hlt : ∀ x ∈ l, x < 2 ^ 32) (h : Stored u.data i (bytes (deltaOctets prev l) ++ [0])) :
    applyStream u prev =
      some (l, { u with index := min (i + ((deltaOctets prev l).length + 1)) u.limit }) ∧
      skipDataStream u =
        some { u with index := min (i + ((deltaOctets prev l).length + 1)) u.limit } := by
  induction l generalizing u i prev with
  | nil =>
    obtain ⟨result, hresult, heq⟩ := varintUnpack_zero hat h.head
    rw [applyStream_eq, skipDataStream_eq, heq]
    simp only [List.mem_cons, List.not_mem_nil, or_false] at hresult
    rcases hresult with rfl | rfl <;> exact ⟨rfl, rfl⟩
  | cons x l ih =>
    obtain ⟨hx, hl⟩ := increasing_cons hl
    rw [forall_mem_cons] at hlt
    rw [deltaOctets, bytes_append, List.append_assoc] at h
    have hrest := h.right
    rw [length_bytes] at hrest
    obtain ⟨heq, hlimit⟩ :=
      varintUnpack_write hu hat (Nat.sub_pos_of_lt hx) ((Nat.sub_le x prev).trans_lt hlt.1) h.left
    have hloc : (x - prev + prev) % 2 ^ 32 = x := by
      rw [Nat.sub_add_cancel hx.le, Nat.mod_eq_of_lt hlt.1]
    obtain ⟨happly, hskip⟩ := @ih { u with index := i + (writeLoop (x - prev)).length } _ _ hu
      (min_eq_left hlimit).symm hl hlt.2 hrest
    have hne : x - prev ≠ 0 := by omega
    rw [applyStream_eq, skipDataStream_eq, heq, bind_some, bind_some]
    dsimp only at happly hskip ⊢
    rw [if_pos hne, if_pos hne, hloc, happly, hskip, deltaOctets, length_append, ← Nat.add_assoc,
      ← Nat.add_assoc, ← Nat.add_assoc]
    exact ⟨rfl, rfl⟩

theorem bounded_init (n : ℕ) : Bounded (varintUnpackerInit n) := by
  intro j hj
  by_contra hlimit
  rw [not_lt] at hlimit
  apply hj
  have hsize : n < 2 ^ (8 * (varintUnpackerInit n).limit) := by
    unfold varintUnpackerInit nWordBytes
    dsimp only
    split
    · exact lt_of_lt_of_le ‹_› (by decide)
    · exact (Nat.lt_size_self n).trans_le (Nat.pow_le_pow_right two_pos (by omega))
  have hlt : n < 2 ^ (8 * j) := hsize.trans_le (Nat.pow_le_pow_right two_pos (by omega))
  show ByteSpec.ldb 8 (8 * j) n = 0
  rw [ByteSpec.ldb, Nat.div_eq_of_lt hlt, Nat.zero_mod]

end Runtime

/-! ## The round trip -/

/-- The number of octets of three lists with their delimiters. -/
def octetCount (l1 l2 l3 : List ℕ) : ℕ :=
  ((deltaOctets 0 l1).length + 1) + ((deltaOctets 0 l2).length + 1) +
    ((deltaOctets 0 l3).length + 1)

/-- The locations and the positions in the integer are of their declared types. -/
def InBounds (l1 l2 l3 : List ℕ) : Prop :=
  (∀ x ∈ l1 ++ l2 ++ l3, x < locLimit) ∧ 8 * octetCount l1 l2 l3 < bytePosLimit

section RoundTrip
variable {l1 l2 l3 : List ℕ} {n : ℕ}

/-- The places after the first two streams. -/
def place1 (l1 : List ℕ) : ℕ := (deltaOctets 0 l1).length + 1

def place2 (l1 l2 : List ℕ) : ℕ := place1 l1 + ((deltaOctets 0 l2).length + 1)

theorem inBounds_iff : InBounds l1 l2 l3 ↔ Decodes 0 l1 ((deltaOctets 0 l1).length + 1) ∧
    Decodes (place1 l1) l2 ((deltaOctets 0 l2).length + 1) ∧
    Decodes (place2 l1 l2) l3 ((deltaOctets 0 l3).length + 1) := by
  unfold InBounds Decodes octetCount place2 place1
  simp only [List.forall_mem_append]
  constructor
  · rintro ⟨⟨⟨hl1, hl2⟩, hl3⟩, hcount⟩
    exact ⟨⟨hl1, by omega⟩, ⟨hl2, by omega⟩, hl3, hcount⟩
  · rintro ⟨⟨hl1, -⟩, ⟨hl2, -⟩, hl3, hcount⟩
    exact ⟨⟨⟨hl1, hl2⟩, hl3⟩, hcount⟩

theorem stored_packed (h1 : Increasing 0 l1) (h2 : Increasing 0 l2) (h3 : Increasing 0 l3)
    (hn : packCodeFixupLocs l1 l2 l3 = some n) :
    Stored (byteAt n) 0 (bytes (deltaOctets 0 l1) ++ [0]) ∧
      Stored (byteAt n) (place1 l1) (bytes (deltaOctets 0 l2) ++ [0]) ∧
      Stored (byteAt n) (place2 l1 l2) (bytes (deltaOctets 0 l3) ++ [0]) := by
  obtain ⟨-, hstored⟩ := packCodeFixupLocs_spec h1 h2 h3 hn
  have hrest := hstored.right
  rw [length_append, length_bytes, length_singleton, Nat.zero_add] at hrest
  have hlast := hrest.right
  rw [length_append, length_bytes, length_singleton] at hlast
  exact ⟨hstored.left, hrest.left, hlast⟩

theorem decode_packed (h1 : Increasing 0 l1) (h2 : Increasing 0 l2) (h3 : Increasing 0 l3)
    (hn : packCodeFixupLocs l1 l2 l3 = some n) :
    (decode n 0 = if Decodes 0 l1 ((deltaOctets 0 l1).length + 1) then some (l1,
      8 * place1 l1) else none) ∧
    (decode n (8 * place1 l1) =
      if Decodes (place1 l1) l2 ((deltaOctets 0 l2).length + 1) then some (l2,
        8 * place2 l1 l2) else none) ∧
    (decode n (8 * place2 l1 l2) =
      if Decodes (place2 l1 l2) l3 ((deltaOctets 0 l3).length + 1) then some (l3,
        8 * octetCount l1 l2 l3) else none) := by
  obtain ⟨⟨hfit1, hfit2, hfit3⟩, -⟩ := packCodeFixupLocs_spec h1 h2 h3 hn
  obtain ⟨hstored1, hstored2, hstored3⟩ := stored_packed h1 h2 h3 hn
  refine ⟨?_, decodeLoop_deltas h2 hfit2 hstored2, decodeLoop_deltas h3 hfit3 hstored3⟩
  have := decodeLoop_deltas h1 hfit1 hstored1
  rwa [Nat.mul_zero, Nat.zero_add] at this

theorem pack_of_inBounds (h1 : Increasing 0 l1) (h2 : Increasing 0 l2) (h3 : Increasing 0 l3)
    (h : ∀ x ∈ l1 ++ l2 ++ l3, x < 2 ^ 32) : ∃ n, packCodeFixupLocs l1 l2 l3 = some n := by
  simp only [List.forall_mem_append] at h
  obtain ⟨⟨hl1, hl2⟩, hl3⟩ := h
  exact packCodeFixupLocs_isSome h1 h2 h3 (deltasFit_of_lt hl1) (deltasFit_of_lt hl2)
    (deltasFit_of_lt hl3)

/-- The lists come back if and only if everything is in bounds. -/
theorem unpack_pack_iff (h1 : Increasing 0 l1) (h2 : Increasing 0 l2) (h3 : Increasing 0 l3) :
    (packCodeFixupLocs l1 l2 l3).bind unpackCodeFixupLocs = some (l1, l2, l3) ↔
    InBounds l1 l2 l3 := by
  constructor
  · intro h
    obtain ⟨n, hn, h⟩ := bind_eq_some_iff.1 h
    obtain ⟨hdecode1, hdecode2, hdecode3⟩ := decode_packed h1 h2 h3 hn
    rw [inBounds_iff]
    obtain ⟨⟨_, pos1⟩, heq, h⟩ := bind_eq_some_iff.1 h
    by_cases hd1 : Decodes 0 l1 ((deltaOctets 0 l1).length + 1)
    · rw [hdecode1, if_pos hd1] at heq
      cases heq
      obtain ⟨⟨_, pos2⟩, heq, h⟩ := bind_eq_some_iff.1 h
      by_cases hd2 : Decodes (place1 l1) l2 ((deltaOctets 0 l2).length + 1)
      · rw [hdecode2, if_pos hd2] at heq
        cases heq
        obtain ⟨⟨_, pos3⟩, heq, h⟩ := bind_eq_some_iff.1 h
        by_cases hd3 : Decodes (place2 l1 l2) l3 ((deltaOctets 0 l3).length + 1)
        · exact ⟨hd1, hd2, hd3⟩
        · rw [hdecode3, if_neg hd3] at heq
          cases heq
      · rw [hdecode2, if_neg hd2] at heq
        cases heq
    · rw [hdecode1, if_neg hd1] at heq
      cases heq
  · intro h
    obtain ⟨n, hn⟩ := pack_of_inBounds h1 h2 h3 fun x hx => (h.1 x hx).trans (by decide)
    obtain ⟨hdecode1, hdecode2, hdecode3⟩ := decode_packed h1 h2 h3 hn
    obtain ⟨hd1, hd2, hd3⟩ := inBounds_iff.1 h
    rw [if_pos hd1] at hdecode1
    rw [if_pos hd2] at hdecode2
    rw [if_pos hd3] at hdecode3
    rw [hn, bind_some, unpackCodeFixupLocs, hdecode1]
    show ((decode n (8 * place1 l1)).bind fun a => _) = _
    rw [hdecode2]
    show ((decode n (8 * place2 l1 l2)).bind fun a => _) = _
    rw [hdecode3]
    rfl

theorem readVarIntegerAt_write {v : ℕ} (hv : v < 2 ^ 32) (before after : List Octet) : ∃ octets,
    writeVarInteger v = some octets ∧
    readVarIntegerAt (before ++ octets ++ after) before.length =
      some (v, before.length + octets.length) := by
  refine ⟨writeLoop v, if_pos hv, ?_⟩
  unfold readVarIntegerAt
  rw [List.append_assoc, List.drop_left, readVarInteger_write (if_pos hv), map_some,
    length_append, length_append]
  dsimp only
  rw [← Nat.add_assoc, Nat.add_sub_cancel]

/-- Three lists of locations come back from the integer that they are packed in if and only if
everything is in bounds. The reader of the runtime then gets the same lists, and stops after each
where the Lisp decoder does, or at the end of the data, which only delimiters lie beyond. -/
theorem fixupLocs_round_trip (h1 : Increasing 0 l1) (h2 : Increasing 0 l2) (h3 : Increasing 0 l3) :
    ((packCodeFixupLocs l1 l2 l3).bind unpackCodeFixupLocs = some (l1, l2, l3) ↔
      InBounds l1 l2 l3) ∧
    (InBounds l1 l2 l3 → ∃ n i1 i2 i3, packCodeFixupLocs l1 l2 l3 = some n ∧
      decode n 0 = some (l1, 8 * i1) ∧ decode n (8 * i1) = some (l2, 8 * i2) ∧
      decode n (8 * i2) = some (l3, 8 * i3) ∧
      ∃ u1 u2 u3 : VarintUnpacker, applyStream (varintUnpackerInit n) 0 = some (l1, u1) ∧
        applyStream u1 0 = some (l2, u2) ∧
        applyStream u2 0 = some (l3, u3) ∧ skipDataStream (varintUnpackerInit n) = some u1 ∧
        skipDataStream u1 = some u2 ∧ skipDataStream u2 = some u3 ∧
        (∀ p ∈ [(u1, i1), (u2, i2), (u3, i3)], p.1.index = min p.2 (varintUnpackerInit n).limit) ∧
        ∀ i ≥ (varintUnpackerInit n).limit, byteAt n i = 0) ∧
    (∀ v < 2 ^ 32, ∀ before after : List Octet, ∃ octets, writeVarInteger v = some octets ∧
      readVarIntegerAt (before ++ octets ++ after) before.length =
        some (v, before.length + octets.length)) := by
  refine ⟨unpack_pack_iff h1 h2 h3, fun h => ?_,
    fun v hv before after => readVarIntegerAt_write hv before after⟩
  have hlt : ∀ x ∈ l1 ++ l2 ++ l3, x < 2 ^ 32 := fun x hx => (h.1 x hx).trans (by decide)
  obtain ⟨n, hn⟩ := pack_of_inBounds h1 h2 h3 hlt
  obtain ⟨hdecode1, hdecode2, hdecode3⟩ := decode_packed h1 h2 h3 hn
  obtain ⟨hd1, hd2, hd3⟩ := inBounds_iff.1 h
  rw [if_pos hd1] at hdecode1
  rw [if_pos hd2] at hdecode2
  rw [if_pos hd3] at hdecode3
  obtain ⟨hstored1, hstored2, hstored3⟩ := stored_packed h1 h2 h3 hn
  simp only [List.forall_mem_append] at hlt
  obtain ⟨⟨hlt1, hlt2⟩, hlt3⟩ := hlt
  have hu := bounded_init n
  generalize hinit : varintUnpackerInit n = u at hu
  have hdata : u.data = byteAt n := by
    rw [← hinit]
    rfl
  have hzero : AtPlace u 0 := by
    rw [← hinit]
    exact (Nat.zero_min _).symm
  rw [← hdata] at hstored1 hstored2 hstored3
  obtain ⟨happly1, hskip1⟩ := stream_deltas hu hzero h1 hlt1 hstored1
  rw [Nat.zero_add] at happly1 hskip1
  obtain ⟨happly2, hskip2⟩ :=
    @stream_deltas { u with index := min (place1 l1) u.limit } _ _ _ hu rfl h2 hlt2 hstored2
  obtain ⟨happly3, hskip3⟩ :=
    @stream_deltas { u with index := min (place2 l1 l2) u.limit } _ _ _ hu rfl h3 hlt3 hstored3
  refine ⟨n, place1 l1, place2 l1 l2, octetCount l1 l2 l3, hn, hdecode1, hdecode2, hdecode3, ?_⟩
  rw [hinit]
  refine ⟨_, _, _, happly1, happly2, happly3, hskip1, hskip2, hskip3, ?_⟩
  have hcount : place2 l1 l2 + ((deltaOctets 0 l3).length + 1) = octetCount l1 l2 l3 := rfl
  constructor
  · simp only [forall_mem_cons, List.not_mem_nil, false_imp_iff, implies_true, and_true]
    exact ⟨rfl, rfl, congrArg (min · u.limit) hcount⟩
  intro i hi
  by_contra hne
  rw [← hdata] at hne
  exact absurd (hu i hne) (not_lt.2 hi)

theorem length_writeLoop_of_lt {v : ℕ} (hv : v < 128) : (writeLoop v).length = 1 := by
  rcases writeLoop_cases v with ⟨-, octet, -, heq⟩ | ⟨hmore, -⟩
  · rw [heq, length_singleton]
  · omega

/-- Three lists, of which the second is empty. -/
theorem fixupLocs_round_trip_three :
    (packCodeFixupLocs [3, 100] [] [90]).bind unpackCodeFixupLocs = some ([3, 100], [], [90]) := by
  refine (fixupLocs_round_trip ?_ ?_ ?_).1.2 ⟨by decide, ?_⟩
  · unfold Increasing
    decide
  · unfold Increasing
    decide
  · unfold Increasing
    decide
  · simp only [octetCount, deltaOctets, length_append, List.length_nil]
    rw [length_writeLoop_of_lt (by decide), length_writeLoop_of_lt (by decide),
      length_writeLoop_of_lt (by decide)]
    decide

theorem length_deltaOctets_ge (prev : ℕ) (l : List ℕ) : l.length ≤ (deltaOctets prev l).length := by
  induction l generalizing prev with
  | nil => exact Nat.le_refl 0
  | cons x l ih =>
    have := length_writeLoop_pos (x - prev)
    have := ih x
    rw [deltaOctets, length_append, length_cons]
    omega

theorem increasing_range' (n : ℕ) : Increasing 0 (List.range' 1 n) := by
  refine List.pairwise_cons.2 ⟨fun x hx => ?_, List.pairwise_lt_range'⟩
  have := (List.mem_range'_1.1 hx).1
  omega

theorem not_inBounds_dense {n : ℕ} (hn : 2 ^ 17 ≤ n) : ¬ InBounds (List.range' 1 n) [] [] := by
  rintro ⟨-, hcount⟩
  have hlen := length_deltaOctets_ge 0 (List.range' 1 n)
  rw [List.length_range'] at hlen
  unfold octetCount bytePosLimit at hcount
  omega

theorem locations_lt_dense {n : ℕ} (hn : n < 2 ^ 28) : ∀ x ∈ List.range' 1 n, x < locLimit := by
  intro x hx
  have := (List.mem_range'_1.1 hx).2
  unfold locLimit
  omega

theorem not_round_trip_dense : Increasing 0 (List.range' 1 (2 ^ 17)) ∧
    (∀ x ∈ List.range' 1 (2 ^ 17), x < locLimit) ∧
    ¬ (packCodeFixupLocs (List.range' 1 (2 ^ 17)) [] []).bind unpackCodeFixupLocs =
      some (List.range' 1 (2 ^ 17), [], []) :=
  ⟨increasing_range' _, locations_lt_dense (by decide), mt
    (unpack_pack_iff (increasing_range' _) (List.pairwise_singleton ..)
      (List.pairwise_singleton ..)).1 (not_inBounds_dense (le_refl _))⟩

end RoundTrip

end Sbcl.VarInteger
