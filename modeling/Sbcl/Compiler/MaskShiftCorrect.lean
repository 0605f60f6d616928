import Sbcl.Bignum.LogicCorrect
import Sbcl.Compiler.MaskShift
import Sbcl.Compiler.ModarithCorrect

/-!
# Masks and shifts of calls keep their values

* `Under` : the bits of one integer are among those of another;
* `logandTransform_eq` : a constant under a mask is narrowed or dropped;
* `ashTransform_eq_iff` : two shifts are one, but below the width of a modular one;
* `ashIntoWordSmall_eq`, `ashIntoWordLarge_eq`, `ashIntoWordVariable_eq` : two digits make the word
  of a shift;
* `rewrites_eq_iff` : all of them.
-/

namespace Sbcl.Compiler.Modarith

open Truncation
open IntBits (eq_of_testBit_eq land_comm testBit_ediv testBit_emod)
open Option (bind_eq_some_iff map_eq_some_iff)

variable {other : String → List ℤ → ℤ} {env : Env}

@[simp] theorem eval_call (name : Fun) (x y : Lvar) :
    (call name x y).eval other env = name.eval other [x.eval other env, y.eval other env] := by
  simp only [call, Lvar.eval, Node.eval, Args.eval]

@[simp] theorem eval_constant (value : ℤ) : (constant value).eval other env = value := by
  simp only [constant, Lvar.eval, Node.eval]

/-! ## Masks -/

/-- The bits of `a` are bits of `mask`. -/
def Under (a mask : ℤ) : Prop := ∀ i, a.testBit i = true → mask.testBit i = true

theorem Under.refl (a : ℤ) : Under a a := fun _ h => h

theorem under_pow_sub_one {a : ℤ} {w : ℕ} (h : IsCut false w a) : Under a (2 ^ w - 1) := by
  intro i hi
  rw [← h, testBit_cut_false, Bool.and_eq_true] at hi
  rw [IntBits.testBit_pow_sub_one]
  exact hi.1

theorem ldb_neg_one (w : ℕ) : ldb w 0 (-1) = 2 ^ w - 1 := by
  refine eq_of_testBit_eq fun i => ?_
  rw [ldb_zero, testBit_emod, IntBits.testBit_neg_one, IntBits.testBit_pow_sub_one, Bool.and_true]

section
variable {a mask n b : ℤ} (h : Under a mask)
include h

theorem and_of_under (i : ℕ) : (a.testBit i && mask.testBit i) = a.testBit i := by
  have := h i
  cases ha : a.testBit i with
  | false => rfl
  | true => rw [this ha]; rfl

theorem logand_logand_cut : logand a (logand n (logand b mask)) = logand a (logand n b) := by
  refine eq_of_testBit_eq fun i => ?_
  simp only [logand, Int.testBit_land]
  rw [← and_of_under h i]
  cases a.testBit i <;> cases mask.testBit i <;> simp

theorem logand_logior_cut : logand a (logior n (logand b mask)) = logand a (logior n b) := by
  refine eq_of_testBit_eq fun i => ?_
  simp only [logand, logior, Int.testBit_land, Int.testBit_lor]
  rw [← and_of_under h i]
  cases a.testBit i <;> cases mask.testBit i <;> simp

theorem logand_logxor_cut : logand a (logxor n (logand b mask)) = logand a (logxor n b) := by
  refine eq_of_testBit_eq fun i => ?_
  simp only [logand, logxor, Int.testBit_land, Int.testBit_lxor]
  rw [← and_of_under h i]
  cases a.testBit i <;> cases mask.testBit i <;> simp

theorem logand_logand_all (hb : logand b mask = mask) : logand a (logand n b) = logand a n := by
  rw [← logand_logand_cut h, hb]
  refine eq_of_testBit_eq fun i => ?_
  simp only [logand, Int.testBit_land]
  rw [← and_of_under h i]
  cases a.testBit i <;> cases mask.testBit i <;> simp

theorem logand_logior_all : logand a (logior n mask) = logand a mask := by
  refine eq_of_testBit_eq fun i => ?_
  simp only [logand, logior, Int.testBit_land, Int.testBit_lor]
  rw [← and_of_under h i]
  cases a.testBit i <;> cases mask.testBit i <;> simp

end

/-! ## `logand` -/

theorem isCut_of_unsignedMaskWidth {type : Ctype} {w : ℕ} {a : ℤ}
    (hw : unsignedMaskWidth type = some w) (ha : type.Mem a) (h0 : 0 ≤ a) : IsCut false w a := by
  obtain ⟨high, hhigh, rfl⟩ := map_eq_some_iff.1 hw
  have hle := le_high_of_mem hhigh ha
  exact isCut_false_iff.2 ⟨h0, hle.trans_lt (lt_pow_integerLength (h0.trans hle))⟩

theorem nonneg_of_unsignedByteP {type : Ctype} {a : ℤ} (h : unsignedByteP type = true)
    (ha : type.Mem a) : 0 ≤ a :=
  (csubtypep_sound h ha).1 0 rfl

theorem logandConstantTransform_eq {x y r : Lvar} {resultType : Ctype} (hy : y.Sound other env)
    (hresult : resultType.Mem (logand (x.eval other env) (y.eval other env)))
    (h : logandConstantTransform x y resultType = some r) :
    r.eval other env = logand (x.eval other env) (y.eval other env) := by
  unfold logandConstantTransform at h
  split_ifs at h with hword
  obtain ⟨mask, hmask, h⟩ := bind_eq_some_iff.1 h
  obtain ⟨width, hwidth, h⟩ := bind_eq_some_iff.1 h
  dsimp only at h
  split_ifs at h
  obtain rfl := Option.some.inj h
  have hcut :=
    isCut_of_unsignedMaskWidth hwidth hresult (isCut_false_iff.1 (fitsWidth_sound hword hresult)).1
  rw [eval_call, eval_constant, ← eval_of_constantLvar hy hmask, ldb_zero]
  -- the result has no bits above the width
  refine eq_of_testBit_eq fun i => ?_
  rw [← hcut, testBit_cut_false]
  simp only [Fun.eval, logand, Int.testBit_land, testBit_emod]
  cases decide (i < width) <;> simp

/-- What a rewriting of the second argument of a `logand` has to keep. -/
def KeepsMasked (other : String → List ℤ → ℤ) (env : Env)
    (rewrite : Lvar → Lvar → Option Lvar) : Prop :=
  ∀ a inner r, a.Sound other env → inner.Sound other env → rewrite a inner = some r →
    logand (a.eval other env) (r.eval other env) = logand (a.eval other env) (inner.eval other env)

theorem under_maskOf {a : Lvar} {w : ℕ} (ha : a.Sound other env)
    (hcut : IsCut false w (a.eval other env)) :
    Under (a.eval other env) (maskOf a (2 ^ w - 1)) := by
  unfold maskOf
  rcases hc : constantLvar a with _ | value
  · exact under_pow_sub_one hcut
  · rw [Option.getD_some, eval_of_constantLvar ha hc]
    exact Under.refl value

/-- An unsigned argument is cut by the width of its type, and it is under the mask of that width. -/
theorem cut_under_mask {a : Lvar} {w : ℕ} (ha : a.Sound other env)
    (hunsigned : unsignedByteP a.type = true) (hwidth : unsignedMaskWidth a.type = some w) :
    IsCut false w (a.eval other env) ∧ Under (a.eval other env) (maskOf a (2 ^ w - 1)) := by
  have hcut := isCut_of_unsignedMaskWidth hwidth ha.mem (nonneg_of_unsignedByteP hunsigned ha.mem)
  exact ⟨hcut, under_maskOf ha hcut⟩

variable {a x y : Lvar} {kind : CombinationKind} {type : Ctype} {name : Fun}

theorem sound_args
    (h : (Lvar.use (.combination kind name (.cons x (.cons y .nil)) type)).Sound other env) :
    x.Sound other env ∧ y.Sound other env := by
  simp only [Lvar.Sound, Node.Sound, Args.Sound] at h
  exact ⟨h.1.1, h.1.2.1⟩

theorem eval_combination :
    (Lvar.use (.combination kind name (.cons x (.cons y .nil)) type)).eval other env =
      name.eval other [x.eval other env, y.eval other env] := by
  simp only [Lvar.eval, Node.eval, Args.eval]

/-- What the three cuts have in common: the constant, and the mask that the argument is under. -/
theorem cut_spec {r : Lvar} {cut : ℤ → ℕ → Option Lvar} (ha : a.Sound other env)
    (hinner : (Lvar.use (.combination kind name (.cons x (.cons y .nil)) type)).Sound other env)
    (h : (if unsignedByteP a.type = true then do
        let b ← constantLvar y
        let width ← unsignedMaskWidth a.type
        cut b width
      else none) = some r) :
    ∃ b width, cut b width = some r ∧
      (Lvar.use (.combination kind name (.cons x (.cons y .nil)) type)).eval other env =
        name.eval other [x.eval other env, b] ∧
      IsCut false width (a.eval other env) ∧
      Under (a.eval other env) (maskOf a (2 ^ width - 1)) := by
  obtain ⟨-, hy⟩ := sound_args hinner
  split_ifs at h with hunsigned
  obtain ⟨b, hb, h⟩ := bind_eq_some_iff.1 h
  obtain ⟨width, hwidth, h⟩ := bind_eq_some_iff.1 h
  refine ⟨b, width, h, ?_, cut_under_mask ha hunsigned hwidth⟩
  rw [eval_combination, eval_of_constantLvar hy hb]

theorem cutLogand_keeps (modfx : Bool) : KeepsMasked other env (cutLogand modfx) := by
  intro a inner r ha hinner h
  unfold cutLogand at h
  split at h
  · obtain ⟨b, width, h, heval, -, hunder⟩ := cut_spec ha hinner h
    rw [heval]
    rw [ldb_neg_one] at h
    dsimp only at h
    split_ifs at h with hall
    · obtain rfl := Option.some.inj h
      exact (logand_logand_all hunder hall.2.2).symm
    · obtain rfl := Option.some.inj h
      rw [eval_call, eval_constant]
      exact logand_logand_cut hunder
  · exact absurd h (by simp)

theorem cutLogior_keeps : KeepsMasked other env cutLogior := by
  intro a inner r ha hinner h
  unfold cutLogior at h
  split at h
  · obtain ⟨b, width, h, heval, hcut, hunder⟩ := cut_spec ha hinner h
    rw [heval]
    rw [ldb_neg_one] at h
    dsimp only at h
    split_ifs at h with hall
    · obtain rfl := Option.some.inj h
      rw [eval_constant, Fun.eval, ← logand_logior_cut hunder, hall]
      exact (logand_logior_all (under_pow_sub_one hcut)).symm
    · obtain rfl := Option.some.inj h
      rw [eval_call, eval_constant]
      exact logand_logior_cut hunder
  · exact absurd h (by simp)

theorem cutLogxor_keeps : KeepsMasked other env cutLogxor := by
  intro a inner r ha hinner h
  unfold cutLogxor at h
  split at h
  · obtain ⟨b, width, h, heval, -, hunder⟩ := cut_spec ha hinner h
    rw [heval]
    rw [ldb_neg_one] at h
    dsimp only at h
    split_ifs at h
    obtain rfl := Option.some.inj h
    rw [eval_call, eval_constant]
    exact logand_logxor_cut hunder
  · exact absurd h (by simp)

theorem dropMaskSignedField_keeps : KeepsMasked other env dropMaskSignedField := by
  intro a inner r ha hinner h
  unfold dropMaskSignedField at h
  split at h
  · rename_i kind size b type
    obtain ⟨hsize, -⟩ := sound_args hinner
    rw [eval_combination]
    split_ifs at h with hunsigned
    obtain ⟨sign, hsign, h⟩ := bind_eq_some_iff.1 h
    obtain ⟨width, hwidth, h⟩ := bind_eq_some_iff.1 h
    split_ifs at h with hlt
    obtain rfl := Option.some.inj h
    obtain ⟨h0, hcut⟩ := isCut_false_iff.1 (cut_under_mask ha hunsigned hwidth).1
    rw [eval_of_constantLvar hsize hsign, Fun.eval, maskSignedField_eq]
    -- the field has the bits of the mask
    have hmod :=
      modEq_mono (cut_modEq true sign.toNat (b.eval other env)) (show width ≤ sign.toNat by omega)
    rw [show logand (a.eval other env) (b.eval other env) = _ from land_comm _ _,
      show logand (a.eval other env) (cut true sign.toNat (b.eval other env)) =
      _ from land_comm _ _]
    exact (land_eq_of_modEq hmod h0 hcut).symm
  · exact absurd h (by simp)

theorem eq_some_of_orElse {α : Type} {o o' : Option α} {r : α} (h : (o <|> o') = some r) :
    o = some r ∨ o' = some r := by
  cases o with
  | none => exact .inr h
  | some _ => exact .inl h

theorem eitherOrder_keeps {rewrite : Lvar → Lvar → Option Lvar}
    (hkeeps : KeepsMasked other env rewrite) {x' y' : Lvar}
    (hx : x.Sound other env) (hy : y.Sound other env)
    (h : eitherOrder rewrite x y = some (x', y')) :
    logand (x'.eval other env) (y'.eval other env) = logand (x.eval other env)
      (y.eval other env) := by
  rcases eq_some_of_orElse h with h | h
  · obtain ⟨r, hr, heq⟩ := map_eq_some_iff.1 h
    obtain ⟨rfl, rfl⟩ := Prod.mk.inj heq
    exact hkeeps x y r hx hy hr
  obtain ⟨r, hr, heq⟩ := map_eq_some_iff.1 h
  obtain ⟨rfl, rfl⟩ := Prod.mk.inj heq
  have hand := hkeeps y x r hy hx hr
  rwa [show logand (y.eval other env) (r.eval other env) = _ from land_comm _ _,
    show logand (y.eval other env) (x.eval other env) = _ from land_comm _ _] at hand

theorem logandTransform_eq {modfx : Bool} {x' y' : Lvar} (hx : x.Sound other env)
    (hy : y.Sound other env) (h : logandTransform modfx x y = some (x', y')) :
    logand (x'.eval other env) (y'.eval other env) = logand (x.eval other env)
      (y.eval other env) := by
  rcases eq_some_of_orElse h with h | h
  · exact eitherOrder_keeps (cutLogand_keeps modfx) hx hy h
  rcases eq_some_of_orElse h with h | h
  · exact eitherOrder_keeps cutLogior_keeps hx hy h
  rcases eq_some_of_orElse h with h | h
  · exact eitherOrder_keeps cutLogxor_keeps hx hy h
  · exact eitherOrder_keeps dropMaskSignedField_keeps hx hy h

/-! ## `ash` -/

theorem ash_add (x a c : ℤ) (ha : 0 ≤ a) : ash (ash x a) c = ash x (a + c) := by
  obtain ⟨n, rfl⟩ := Int.eq_ofNat_of_zero_le ha
  rcases Int.le_total 0 c with hc | hc
  · obtain ⟨k, rfl⟩ := Int.eq_ofNat_of_zero_le hc
    rw [ash_ofNat, ash_ofNat, ← Nat.cast_add, ash_ofNat, pow_add, mul_assoc]
  obtain ⟨k, hk⟩ := Int.eq_ofNat_of_zero_le (Int.neg_nonneg_of_nonpos hc)
  obtain rfl : c = -k := by omega
  rw [ash_ofNat, ash_neg]
  rcases Nat.le_total k n with hkn | hkn
  · rw [show (n : ℤ) + -(k : ℤ) = ((n - k : ℕ) : ℤ) by omega, ash_ofNat]
    conv_lhs => rw [← Nat.sub_add_cancel hkn, pow_add, ← mul_assoc]
    exact Int.mul_ediv_cancel _ (by positivity)
  · rw [show (n : ℤ) + -(k : ℤ) = -((k - n : ℕ) : ℤ) by omega, ash_neg]
    conv_lhs => rw [← Nat.sub_add_cancel hkn, pow_add]
    exact Int.mul_ediv_mul_of_pos_left _ _ (by positivity)

theorem nonneg_of_plus {type : Ctype} {n : ℤ}
    (h : intervalRangeInfo (typeApproximateInterval type) 0 = some .plus)
    (hn : type.Mem n) : 0 ≤ n := by
  unfold intervalRangeInfo typeApproximateInterval at h
  split_ifs at h with hlow
  · obtain ⟨lo, hlo, h0⟩ := hlow
    obtain ⟨low, hlow, rfl⟩ := map_eq_some_iff.1 hlo
    have h0' : (0 : ℤ) ≤ low := by exact_mod_cast (show (0 : ℚ) ≤ low from h0)
    exact h0'.trans (low_le_of_mem hlow hn)
  · exact absurd h (by simp)

theorem ash_emod {c : ℤ} {w k : ℕ} (hk : (k : ℤ) = w + c) (z : ℤ) :
    ash (z % 2 ^ w) c = ash z c % 2 ^ k := by
  rcases Int.le_total 0 c with hc | hc
  · obtain ⟨n, rfl⟩ := Int.eq_ofNat_of_zero_le hc
    obtain rfl : k = w + n := by exact_mod_cast hk
    rw [ash_ofNat, ash_ofNat, pow_add, mul_comm (z % _), mul_comm z, mul_comm (2 ^ w),
      Int.mul_emod_mul_of_pos _ _ (by positivity)]
  obtain ⟨n, hn⟩ := Int.eq_ofNat_of_zero_le (Int.neg_nonneg_of_nonpos hc)
  obtain rfl : c = -n := by omega
  obtain rfl : w = k + n := by omega
  refine eq_of_testBit_eq fun i => ?_
  rw [ash_neg, ash_neg, testBit_ediv, testBit_emod, testBit_emod, testBit_ediv]
  simp only [Nat.add_lt_add_iff_right]

theorem ash_eq_zero_iff (z : ℤ) {c : ℤ} (hc : c ≤ 0) : ash z c = 0 ↔ 0 ≤ z ∧
    z < 2 ^ (-c).toNat := by
  obtain ⟨n, hn⟩ := Int.eq_ofNat_of_zero_le (Int.neg_nonneg_of_nonpos hc)
  obtain rfl : c = -n := by omega
  rw [ash_neg, neg_neg, Int.toNat_natCast]
  have hpos : (0 : ℤ) < 2 ^ n := by positivity
  refine ⟨fun h => ?_, fun h => Int.ediv_eq_zero_of_lt h.1 h.2⟩
  have hdiv := Int.mul_ediv_add_emod z (2 ^ n)
  have hlow := Int.emod_nonneg z hpos.ne'
  have hhigh := Int.emod_lt_of_pos z hpos
  rw [h, mul_zero, zero_add] at hdiv
  exact ⟨hdiv ▸ hlow, hdiv ▸ hhigh⟩

theorem logand_mask_eq_iff (z c : ℤ) (w : ℕ) :
    logand (ash z c) (ash 1 (w + c) - 1) = ash (z % 2 ^ w) c ↔ -(w : ℤ) ≤ c ∨ 0 ≤ z ∧
    z < 2 ^ (-c).toNat := by
  rcases Int.lt_or_le c (-w) with hc | hc
  · have hmask : ash 1 (w + c) = 0 :=
      (ash_eq_zero_iff 1 (by omega)).2 ⟨by decide, one_lt_pow₀ (by decide) (by omega)⟩
    have hzero : ash (z % 2 ^ w) c = 0 := by
      refine (ash_eq_zero_iff _ (by omega)).2 ⟨Int.emod_nonneg _ (by positivity), ?_⟩
      exact (Int.emod_lt_of_pos _ (by positivity)).trans_le
        (pow_le_pow_right₀ (by decide) (by omega))
    have hand : logand (ash z c) (-1) = ash z c := (land_comm _ _).trans (IntBits.neg_one_land _)
    rw [hmask, zero_sub, hand, hzero, ash_eq_zero_iff z (by omega)]
    exact (or_iff_right (not_le.2 hc)).symm
  · obtain ⟨k, hk⟩ := Int.eq_ofNat_of_zero_le (show 0 ≤ (w : ℤ) + c by omega)
    rw [hk, ash_one_pred, logand_mask, ash_emod hk.symm]
    exact iff_of_true rfl (.inl hc)

/-- Where the value is a modular shift, the second one is not below the width of a word, or leaves
nothing of the unbounded shift either. -/
def ShiftFits (other : String → List ℤ → ℤ) (env : Env) (value amount : Lvar) : Prop :=
  ∀ kind name x insideAmount type,
    value = .use (.combination kind name (.cons x (.cons insideAmount .nil)) type) →
    (modularAshWidth name).isSome = true →
    -(nWordBits : ℤ) ≤ amount.eval other env ∨
      0 ≤ ash (x.eval other env) (insideAmount.eval other env) ∧
      ash (x.eval other env) (insideAmount.eval other env) < 2 ^ (-amount.eval other env).toNat

theorem ashTransform_eq_iff {value amount r : Lvar} (hvalue : value.Sound other env)
    (hamount : amount.Sound other env) (h : ashTransform value amount = some r) :
    r.eval other env = ash (value.eval other env) (amount.eval other env) ↔
    ShiftFits other env value amount := by
  unfold ashTransform at h
  split at h
  · rename_i kind name x insideAmount type
    obtain ⟨-, hinside⟩ := sound_args hvalue
    rw [eval_combination]
    by_cases hash : name = .ash
    · rw [if_pos hash] at h
      dsimp only at h
      split_ifs at h with hplus
      obtain rfl := Option.some.inj h
      subst hash
      rw [eval_call, eval_call]
      refine iff_of_true (ash_add _ _ _ (nonneg_of_plus hplus hinside.mem)).symm ?_
      intro kind' name' x' insideAmount' type' heq hmodular
      obtain ⟨-, rfl, -, -⟩ : kind = kind' ∧ Fun.ash = name' ∧ _ ∧ _ := by simpa using heq
      exact absurd hmodular (by decide)
    · rw [if_neg hash] at h
      obtain ⟨width, hwidth, h⟩ := bind_eq_some_iff.1 h
      obtain ⟨amountValue, hamountValue, h⟩ := bind_eq_some_iff.1 h
      obtain ⟨insideValue, hinsideValue, h⟩ := bind_eq_some_iff.1 h
      split_ifs at h with hneg
      obtain rfl := Option.some.inj h
      obtain ⟨hname, rfl⟩ : (name = .ashLeftMod false ∨ name = .ashMod false) ∧
          nWordBits = width := by
        unfold modularAshWidth at hwidth
        split_ifs at hwidth with hname
        exact ⟨hname, Option.some.inj hwidth⟩
      have hvalue' : name.eval other [x.eval other env, insideAmount.eval other env] =
          ash (x.eval other env) (insideAmount.eval other env) % 2 ^ nWordBits := by
        rcases hname with rfl | rfl
        all_goals
          rw [Fun.eval]
          exact cutValue_eq false nWordBits _
      have hinside0 : 0 ≤ insideAmount.eval other env := by
        rw [eval_of_constantLvar hinside hinsideValue]
        omega
      rw [eval_call, eval_call, eval_call, eval_constant,
        ← eval_of_constantLvar hamount hamountValue, hvalue',
        Fun.eval, Fun.eval, Fun.eval, ← ash_add _ _ _ hinside0, logand_mask_eq_iff]
      refine ⟨fun hfits kind' name' x' insideAmount' type' heq _ => ?_, fun hfits => ?_⟩
      · obtain ⟨-, -, ⟨rfl, rfl⟩, -⟩ :
            kind = kind' ∧ name = name' ∧ (x = x' ∧ insideAmount = insideAmount') ∧
              type = type' := by
          simpa using heq
        exact hfits
      · refine hfits kind name x insideAmount type rfl ?_
        rw [modularAshWidth, if_pos hname]
        rfl
  · exact absurd h (by simp)

/-! ## `ash-into-word` -/

open SbBignum (Digit LispInteger ashRightTwoWords bignumDigit)

theorem ashRightTwoWords_zero (word2 word1 : Digit) : ashRightTwoWords word2 word1 0 = word1 := by
  refine BitVec.eq_of_getLsbD_eq fun i hi => ?_
  rw [ashRightTwoWords, BitVec.getLsbD_extractLsb', BitVec.getLsbD_append]
  simp [hi]

theorem ashRightTwoWords_digitSize (word2 word1 : Digit) :
    ashRightTwoWords word2 word1 SbBignum.digitSize = word2 := by
  refine BitVec.eq_of_getLsbD_eq fun i hi => ?_
  rw [ashRightTwoWords, BitVec.getLsbD_extractLsb', BitVec.getLsbD_append]
  simp [hi]

/-- A digit is cut as the integers that it is the low bits of. -/
def CutsWords (cut : ℤ → ℤ) (cutWord : Digit → ℤ) : Prop :=
  ∀ digit z, (∀ j < SbBignum.digitSize, BitVec.getLsbD digit j = z.testBit j) →
    cutWord digit = cut z

theorem toNat_eq_emod {digit : Digit} {z : ℤ}
    (h : ∀ j < SbBignum.digitSize, digit.getLsbD j = z.testBit j) :
    (digit.toNat : ℤ) = z % 2 ^ nWordBits := by
  refine eq_of_testBit_eq fun i => ?_
  rw [testBit_emod, IntBits.testBit_natCast, BitVec.testBit_toNat]
  by_cases hi : i < nWordBits
  · rw [decide_eq_true hi, Bool.true_and, h i hi]
  · rw [decide_eq_false hi, Bool.false_and]
    exact BitVec.getLsbD_of_ge digit i (not_lt.1 hi)

theorem wordMod_cutsWords : CutsWords wordMod wordOfDigit := fun digit z h => by
  rw [wordOfDigit, toNat_eq_emod h, wordMod, mostPositiveWord, logand_mask]

theorem wordModfx_cutsWords : CutsWords wordModfx fixnumOfDigit := fun digit z h => by
  rw [fixnumOfDigit, toNat_eq_emod h, wordModfx, maskSignedField_eq, maskSignedField_eq]
  exact cut_congr (modEq_mono (Int.mod_modEq z (2 ^ nWordBits)) (by decide))

section
variable {cut : ℤ → ℤ} {cutWord : Digit → ℤ} (hcut : CutsWords cut cutWord)
    {x : LispInteger} {n count : ℤ}
include hcut

theorem cutWord_ashIntoWordMod (b : SbBignum.Bignum) (hcount : count ≤ 0) :
    cutWord (SbBignum.ashIntoWordMod b (-count).toNat) = cut (ash b.toInt count) := by
  obtain ⟨k, hk⟩ := Int.eq_ofNat_of_zero_le (Int.neg_nonneg_of_nonpos hcount)
  obtain rfl : count = -k := by omega
  rw [neg_neg, Int.toNat_natCast, ash_neg]
  exact hcut _ _ fun j hj => SbBignum.getLsbD_ashIntoWordMod b k hj

theorem ashIntoWordSmall_eq (hx : x.Represents n) (hlow : -(nWordBits : ℤ) ≤ count)
    (hcount : count ≤ 0) : ashIntoWordSmall cut cutWord x count = cut (ash n count) := by
  match x, hx with
  | .fixnum x, hx =>
    obtain rfl : x.val = n := hx
    rfl
  | .bignum b, ⟨hb, hnormal⟩ =>
    rw [ashIntoWordSmall, ← hb]
    split_ifs with hlength
    · rfl
    have hpos := hnormal.length_pos
    have h0 : bignumDigit b 0 = b.ref 0 := if_pos hpos
    have h1 : bignumDigit b 1 = b.ref 1 := if_pos (by omega)
    rw [← cutWord_ashIntoWordMod hcut b hcount, SbBignum.ashIntoWordMod]
    rcases Int.lt_or_eq_of_le hlow with hlt | rfl
    · have hsmall : (-count).toNat < SbBignum.digitSize := by
        simp only [nWordBits, SbBignum.digitSize] at hlt ⊢
        omega
      rw [Nat.div_eq_of_lt hsmall, Nat.mod_eq_of_lt hsmall, h0, h1]
    · rw [neg_neg, Int.toNat_natCast, ← h1, ← h0]
      -- the count is the width: the second digit
      exact congrArg cutWord
        ((ashRightTwoWords_digitSize _ _).trans (ashRightTwoWords_zero _ _).symm)

theorem ashIntoWordLarge_eq (hx : x.Represents n) (hcount : count ≤ 0) :
    ashIntoWordLarge cut cutWord x count = cut (ash n count) := by
  match x, hx with
  | .fixnum x, hx =>
    obtain rfl : x.val = n := hx
    rfl
  | .bignum b, ⟨hb, hnormal⟩ =>
    rw [ashIntoWordLarge, ← hb, ← cutWord_ashIntoWordMod hcut b hcount, SbBignum.ashIntoWordMod]
    split_ifs with hlength hbits
    · rw [← SbBignum.ashIntoWordMod, cutWord_ashIntoWordMod hcut b hcount]
    · rw [show (-count).toNat % SbBignum.digitSize = 0 from hbits, ashRightTwoWords_zero]
      rfl
    · rfl

theorem ashIntoWordRight_eq (hx : x.Represents n) (hcount : count ≤ 0) :
    ashIntoWordRight cut cutWord x count = cut (ash n count) := by
  match x, hx with
  | .fixnum x, hx =>
    obtain rfl : x.val = n := hx
    rfl
  | .bignum b, ⟨hb, _⟩ =>
    rw [← hb]
    exact cutWord_ashIntoWordMod hcut b hcount

theorem ashIntoWordVariable_eq (hx : x.Represents n) {minusp : Bool}
    (hminusp : minusp = true → count ≤ 0) :
    ashIntoWordVariable cut cutWord minusp x count = cut (ash n count) := by
  unfold ashIntoWordVariable
  split_ifs with h hneg
  · exact ashIntoWordRight_eq hcut hx (hminusp h)
  · exact ashIntoWordRight_eq hcut hx hneg.le
  match x, hx with
  | .fixnum x, hx =>
    obtain rfl : x.val = n := hx
    rfl
  | .bignum b, ⟨hb, _⟩ => rw [← hb]

end

/-- Every transform leaves the value of the original form, but the one of a shift of a modular
shift: that does if and only if the shift fits. -/
theorem rewrites_eq_iff (other : String → List ℤ → ℤ) (env : Env) :
    (∀ (x y r : Lvar) (resultType : Ctype), y.Sound other env →
      resultType.Mem (logand (x.eval other env) (y.eval other env)) →
      logandConstantTransform x y resultType = some r →
      r.eval other env = logand (x.eval other env) (y.eval other env)) ∧
    (∀ (modfx : Bool) (x y x' y' : Lvar), x.Sound other env → y.Sound other env →
      logandTransform modfx x y = some (x', y') →
      logand (x'.eval other env) (y'.eval other env) = logand (x.eval other env)
        (y.eval other env)) ∧
    (∀ value amount r : Lvar, value.Sound other env → amount.Sound other env →
      ashTransform value amount = some r →
      (r.eval other env = ash (value.eval other env) (amount.eval other env) ↔
        ShiftFits other env value amount)) ∧
    ∀ (cut : ℤ → ℤ) (cutWord : Digit → ℤ),
      (cut, cutWord) ∈ [(wordMod, wordOfDigit), (wordModfx, fixnumOfDigit)] →
      ∀ (x : LispInteger) (n count : ℤ), x.Represents n →
      (-(nWordBits : ℤ) ≤ count → count ≤ 0 → ashIntoWordSmall cut cutWord x count =
        cut (ash n count)) ∧
      (count ≤ -(nWordBits : ℤ) → ashIntoWordLarge cut cutWord x count = cut (ash n count)) ∧
      ∀ minusp : Bool, (minusp = true → count ≤ 0) →
        ashIntoWordVariable cut cutWord minusp x count = cut (ash n count) := by
  refine ⟨fun x y r resultType hy hresult h => logandConstantTransform_eq hy hresult h,
    fun modfx x y x' y' hx hy h => logandTransform_eq hx hy h,
    fun value amount r hvalue hamount h => ashTransform_eq_iff hvalue hamount h,
    fun cut cutWord hmem x n count hx => ?_⟩
  have hcut : CutsWords cut cutWord := by
    rcases List.mem_cons.1 hmem with heq | hmem
    · obtain ⟨rfl, rfl⟩ := Prod.mk.inj heq
      exact wordMod_cutsWords
    · obtain ⟨rfl, rfl⟩ := Prod.mk.inj (List.mem_singleton.1 hmem)
      exact wordModfx_cutsWords
  refine ⟨fun hlow hcount => ashIntoWordSmall_eq hcut hx hlow hcount, fun hcount => ?_,
    fun minusp hminusp => ashIntoWordVariable_eq hcut hx hminusp⟩
  exact ashIntoWordLarge_eq hcut hx (hcount.trans (neg_nonpos.2 (Int.natCast_nonneg _)))

/-- The low word of `(ash -5 -3)`, and a modular shift by 60 and back by 8. -/
theorem rewrites_eq_iff_words :
    ashIntoWordSmall wordMod wordOfDigit (.fixnum ⟨-5, by decide, by decide⟩)
      (-3) = wordMod (ash (-5) (-3)) ∧
      ∃ r, ashTransform (call (.ashLeftMod false) (constant 3) (constant 60))
        (constant (-8)) = some r ∧ (r.eval (fun _ _ => 0) ⟨fun _ => 0, fun _ => true⟩ =
            ash ((call (.ashLeftMod false) (constant 3) (constant 60)).eval (fun _ _ => 0) ⟨fun _ =>
              0, fun _ => true⟩)
              ((constant (-8)).eval (fun _ _ => 0) ⟨fun _ => 0, fun _ => true⟩) ↔
          ShiftFits (fun _ _ => 0) ⟨fun _ => 0,
            fun _ => true⟩ (call (.ashLeftMod false) (constant 3) (constant 60))
            (constant (-8))) := by
  obtain ⟨-, -, hash, hword⟩ := rewrites_eq_iff (fun _ _ => 0) ⟨fun _ => 0, fun _ => true⟩
  refine ⟨((hword wordMod wordOfDigit (by simp) (.fixnum ⟨-5, by decide, by decide⟩) (-5)
    (-3) rfl).1 (by decide) (by decide)), _, rfl, hash _ _ _ ?_ ?_ rfl⟩
  · simp only [call, constant, Lvar.Sound, Node.Sound, Args.Sound, true_and]
    exact integerCtype_mem _
  · simp only [constant, Lvar.Sound, Node.Sound]

/-- `(ash (ldb (byte 64 0) (ash x (- (expt 2 62) 2))) most-negative-fixnum)` for `x` = 4: the shifts
are added up to -2, and the mask is -1. -/
theorem ashTransform_far :
    ∃ r, ashTransform
        (.use (.combination .known (.ashLeftMod false)
          (.cons (.use (.ref 0 (widthCtype false 64))) (.cons (constant 4611686018427387902) .nil))
            (widthCtype false 64)))
        (constant (-4611686018427387904)) = some r ∧
      r.eval (fun _ _ => 0) ⟨fun _ => 4, fun _ => true⟩ = 1 ∧
      ash ((Lvar.use (.combination .known (.ashLeftMod false)
          (.cons (.use (.ref 0 (widthCtype false 64))) (.cons (constant 4611686018427387902) .nil))
            (widthCtype false 64))).eval (fun _ _ => 0) ⟨fun _ => 4, fun _ => true⟩)
              (-4611686018427387904) = 0 := by
  refine ⟨_, rfl, ?_, ?_⟩
  · have hmask : ash 1 (nWordBits + -4611686018427387904) = 0 :=
      (ash_eq_zero_iff 1 (by decide)).2 ⟨by decide, one_lt_pow₀ (by decide) (by decide)⟩
    rw [eval_call, eval_constant, hmask, eval_call, eval_call, eval_constant, eval_constant]
    simp only [Fun.eval, Lvar.eval, Node.eval]
    decide +kernel
  · rw [eval_combination, Fun.eval, cutValue_eq]
    -- a word is shifted by more than its width
    refine (ash_eq_zero_iff _ (by decide)).2 ⟨Int.emod_nonneg _ (by positivity), ?_⟩
    exact (Int.emod_lt_of_pos _ (by positivity)).trans_le
      (pow_le_pow_right₀ (by decide) (by decide))

end Sbcl.Compiler.Modarith
