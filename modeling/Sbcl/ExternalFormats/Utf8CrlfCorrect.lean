import Sbcl.ExternalFormats.Utf8Crlf
import Sbcl.ExternalFormats.Utf8StreamCorrect

/-!
# The copies of two octets at a time against the loop of one character

* `Overruns`, `overruns_iff` : the octets for which the last pair is stored behind the end;
* `Isolated` : a carriage return that is copied without a line feed;
* `CopySpec`, `simdCopyLoop_spec` : the loop of the copies;
* `crlf_copy_iff` : when a copy is a safe prefix of the loop of one character.
-/

namespace Sbcl.Utf8

open List Option Nat

section Words
variable {sap : List Octet} {low tail head : ℕ} {a b : Octet} {l : List Octet}

theorem and_asciiMask_eq_zero : a.val + 2 ^ 8 * b.val &&& asciiMask = 0 ↔ a.val < 128 ∧
    b.val < 128 := by
  rw [show asciiMask = 2 ^ 7 ||| 2 ^ 15 by decide, and_or_distrib_left, or_eq_zero_iff, and_two_pow,
    and_two_pow]
  simp only [mul_eq_zero, Nat.pow_eq_zero, OfNat.ofNat_ne_zero, false_and, or_false,
    Bool.toNat_eq_zero, testBit_eq_decide_div_mod_eq, decide_eq_false_iff_not]
  omega

theorem sapRef16_left (h : Left sap head tail (a :: b :: l)) (hlow : low ≤ head) :
    sapRef16 sap low tail head = some (a.val + 2 ^ 8 * b.val) := by
  have h0 := sapRef8_left h 0
  have h1 := sapRef8_left h 1
  rw [Nat.add_zero] at h0
  rw [sapRef16, if_pos hlow, h0, h1]
  rfl

theorem Left.cons (h : Left sap head tail (a :: l)) : Left sap (head + 1) tail l :=
  h.drop (n := 1) (by simp)

theorem Left.cons₂ (h : Left sap head tail (a :: b :: l)) : Left sap (head + 2) tail l :=
  h.drop (n := 2) (by simp)

end Words

/-! ## Turns of one character -/

section Turns
variable {sized eof : Bool} {sap : List Octet} {tail head index : ℕ} {a b : Octet} {l : List Octet}

theorem utf8CharLoopTurn_ascii (h : Left sap head tail (a :: l)) (ha : a.val < 128) :
    utf8CharLoopTurn sap head tail = some (.char a 1) := by
  have h0 := sapRef8_left h 0
  rw [Nat.add_zero] at h0
  rw [utf8CharLoopTurn, h0, getElem?_cons_zero, map_some, bind_eq_bind, bind_some, if_pos ha]

theorem utf8CrlfTurn_ascii (h : Left sap head tail (a :: l)) (ha : a.val < 128) (ha13 : a ≠ 13) :
    utf8CrlfTurn sap tail eof head = some (.char a 1) := by
  have h0 := sapRef8_left h 0
  rw [Nat.add_zero] at h0
  rw [utf8CrlfTurn, h0, getElem?_cons_zero, map_some, bind_eq_bind, bind_some,
    if_neg (show ¬ a.val = 13 from fun heq => ha13 (Fin.ext heq))]
  exact utf8CharLoopTurn_ascii h ha

/-- A return that an octet follows. -/
theorem utf8CrlfTurn_return (h : Left sap head tail (13 :: b :: l)) :
    utf8CrlfTurn sap tail eof head = if b.val = 10 then some (.char 10 2)
      else if eof then some (.char 13 1) else some .incomplete := by
  have h0 := sapRef8_left h 0
  have h1 := sapRef8_left h 1
  have hlength := h.length
  rw [length_cons, length_cons] at hlength
  rw [Nat.add_zero] at h0
  rw [utf8CrlfTurn, h0, getElem?_cons_zero, map_some, bind_eq_bind, bind_some,
    if_pos (show (13 : Octet).val = 13 from rfl)]
  rw [if_pos (by omega), h1, getElem?_cons_succ, getElem?_cons_zero, map_some, bind_some,
    utf8CharLoopTurn_ascii h (by decide)]
  rfl

theorem utf8CrlfTurn_crlf (h : Left sap head tail (13 :: 10 :: l)) :
    utf8CrlfTurn sap tail eof head = some (.char 10 2) := by
  rw [utf8CrlfTurn_return h, if_pos (show (10 : Octet).val = 10 from rfl)]

theorem utf8CrlfTurn_cr (h : Left sap head tail (13 :: b :: l)) (hb : b ≠ 10) :
    utf8CrlfTurn sap tail eof head = if eof then some (.char 13 1) else some .incomplete := by
  rw [utf8CrlfTurn_return h, if_neg (show ¬ b.val = 10 from fun heq => hb (Fin.ext heq))]

theorem store_injective (index code : ℕ) (size : Option ℕ) :
    Function.Injective (Copied.store index code size) := by
  intro r r' heq
  obtain ⟨stores, head, index⟩ := r
  obtain ⟨stores', head', index'⟩ := r'
  simpa [Copied.store] using heq

variable {r : Copied}

theorem utf8CharLoop_store_iff {code size : ℕ} (hlt : head < tail)
    (hturn : utf8CrlfTurn sap tail eof head = some (.char code size)) (hcode : code < 128)
    (hr : index + 1 ≤ r.index) :
    utf8CharLoop sized sap tail eof (r.index - index) head index =
      some (r.store index code (sizeStore sized size)) ↔
      utf8CharLoop sized sap tail eof (r.index - (index + 1)) (head + size)
        (index + 1) = some r := by
  rw [show r.index - index = r.index - (index + 1) + 1 by omega, utf8CharLoop,
    if_neg hlt.ne', hturn]
  dsimp only
  rw [codeChar, if_pos (hcode.trans (by decide)), bind_eq_bind, bind_some,
    ← map_some (f := Copied.store index code (sizeStore sized size))]
  exact (map_injective (store_injective _ _ _)).eq_iff

theorem utf8CharLoop_incomplete (hlt : head < tail)
    (hturn : utf8CrlfTurn sap tail eof head = some .incomplete)
    (hr : index < r.index) :
    utf8CharLoop sized sap tail eof (r.index - index) head index ≠ some r := by
  rw [show r.index - index = r.index - (index + 1) + 1 by omega, utf8CharLoop,
    if_neg hlt.ne', hturn]
  intro heq
  rw [← Option.some.inj heq] at hr
  exact lt_irrefl _ hr

end Turns

/-! ## What a copy does -/

/-- From here on, a copy of these octets advances by one octet from each that is before a carriage
return and by two otherwise, and it ends with a pair. -/
def overruns : List Octet → Bool
  | a :: b :: rest =>
    if 128 ≤ a.val ∨ 128 ≤ b.val ∨ a = 13 ∧ b = 10 then false
    else if b = 13 then overruns (b :: rest)
    else rest.isEmpty || overruns rest
  | _ => false

/-- Before the offset there is a carriage return with no line feed behind it, and the octets up to
that are ASCII. -/
def Isolated (m : ℕ) (l : List Octet) : Prop :=
  ∃ j < m, l[j]? = some 13 ∧ l[j + 1]? ≠ some 10 ∧ ∀ k ≤ j + 1, ∃ o : Octet,
    l[k]? = some o ∧ o.val < 128

section
variable {sized : Bool} {sap : List Octet} {low tail head index m : ℕ} {a b : Octet}
    {l : List Octet} {r : Copied}

theorem overruns_take_one (l : List Octet) : overruns (l.take 1) = false := by
  match l with
  | [] => rfl
  | [_] => rfl
  | _ :: _ :: _ => rfl

theorem not_isolated_zero (l : List Octet) : ¬ Isolated 0 l :=
  fun ⟨_, hj, _⟩ => Nat.not_lt_zero _ hj

theorem isolated_cons (ha : a.val < 128) (hno : a = 13 → l[0]? = some 10) :
    Isolated (m + 1) (a :: l) ↔ Isolated m l := by
  constructor
  · rintro ⟨j, hj, hcr, hlf, hascii⟩
    rcases j with _ | j
    · exact absurd (hno (Option.some.inj hcr)) hlf
    · exact ⟨j, by omega, hcr, hlf, fun k hk => hascii (k + 1) (by omega)⟩
  rintro ⟨j, hj, hcr, hlf, hascii⟩
  refine ⟨j + 1, by omega, hcr, hlf, fun k hk => ?_⟩
  rcases k with _ | k
  · exact ⟨a, rfl, ha⟩
  · exact hascii k (by omega)

/-- What is left by a copy from `head` on, of up to `m` of the octets `l`, to `index`. -/
structure CopySpec (sized : Bool) (sap : List Octet) (tail m : ℕ) (l : List Octet) (head index : ℕ)
    (r : Copied) : Prop where
  indices : r.stores.map Store.index = List.range' index (r.index - index)
  index_le : index ≤ r.index
  head_le : head ≤ r.head
  bound : r.index ≤ index + m + 1
  overruns : r.index = index + m + 1 ↔ overruns (l.take (m + 1)) = true
  scalar : ∀ eof, utf8CharLoop sized sap tail eof (r.index - index) head index = some r ↔
    eof = true ∨ ¬ Isolated m l
  unsplit : ∀ k, r.head = head + (k + 1) → l[k]? = some 13 → l[k + 1]? ≠ some 10

theorem CopySpec.nothing (hover : Utf8.overruns (l.take (m + 1)) = false)
    (hisolated : ¬ Isolated m l) : CopySpec sized sap tail m l head index ⟨[], head, index⟩ where
  indices := by simp
  index_le := le_rfl
  head_le := le_rfl
  bound := by dsimp only; omega
  overruns := by
    rw [hover]
    exact iff_of_false (by dsimp only; omega) Bool.false_ne_true
  scalar eof := by
    rw [Nat.sub_self]
    exact iff_of_true rfl (.inr hisolated)
  unsplit k hk := by dsimp only at hk; omega

theorem indices_store {code : ℕ} {size : Option ℕ}
    (h : r.stores.map Store.index = List.range' (index + 1) (r.index - (index + 1)))
    (hle : index + 1 ≤ r.index) :
    (r.store index code size).stores.map Store.index =
      List.range' index ((r.store index code size).index - index) := by
  rw [Copied.store, map_cons, h]
  rw [show r.index - index = r.index - (index + 1) + 1 by omega, range'_succ]

theorem unsplit_append {o : List Octet} (hlast : o.getLast? ≠ some 13 ∨ l[0]? ≠ some 10)
    (hhead : head + o.length ≤ r.head)
    (h : ∀ k, r.head = head + o.length + (k + 1) → l[k]? = some 13 → l[k + 1]? ≠ some 10) (k : ℕ)
    (hk : r.head = head + (k + 1)) (hcr : (o ++ l)[k]? = some 13) : (o ++ l)[k + 1]? ≠ some 10 := by
  rcases Nat.lt_or_ge k o.length with hlt | hge
  · have hlen : o.length = k + 1 := by omega
    rw [getElem?_append_left hlt] at hcr
    rw [getElem?_append_right (by omega), hlen, Nat.sub_self]
    refine hlast.resolve_left fun hne => hne ?_
    rw [getLast?_eq_getElem?, hlen, Nat.add_sub_cancel, hcr]
  · rw [getElem?_append_right hge] at hcr
    rw [getElem?_append_right (by omega), show k + 1 - o.length = k - o.length + 1 by omega]
    exact h (k - o.length) (by omega) hcr

/-! ## The steps of the loop -/

theorem scalar_plain (h : Left sap head tail (a :: l)) (ha : a.val < 128) (ha13 : a ≠ 13)
    (hr : index + 1 ≤ r.index)
    (hscalar : ∀ eof,
      utf8CharLoop sized sap tail eof (r.index - (index + 1)) (head + 1) (index + 1) = some r ↔
      eof = true ∨ ¬ Isolated (m - 1) l) (eof : Bool) :
    utf8CharLoop sized sap tail eof (r.index - index) head index =
      some (r.store index a (sizeStore sized 1)) ↔ eof = true ∨ ¬ Isolated m (a :: l) := by
  have hlt : head < tail := h.pos_lt (cons_ne_nil _ _)
  rw [utf8CharLoop_store_iff hlt (utf8CrlfTurn_ascii h ha ha13) ha hr, hscalar eof]
  refine or_congr_right (not_congr ?_)
  rcases m with _ | m
  · exact iff_of_false (not_isolated_zero _) (not_isolated_zero _)
  · exact (isolated_cons ha fun heq => absurd heq ha13).symm

/-- A carriage return without a line feed is one of the loop with `eof` only. -/
theorem scalar_cr (h : Left sap head tail (13 :: b :: l)) (hb : b.val < 128) (hb10 : b ≠ 10)
    (hr : index + 1 ≤ r.index)
    (hscalar : utf8CharLoop sized sap tail true (r.index - (index + 1)) (head + 1) (index + 1) =
      some r) (eof : Bool) :
    utf8CharLoop sized sap tail eof (r.index - index) head index =
      some (r.store index 13 (sizeStore sized 1)) ↔
      eof = true ∨ ¬ Isolated (m + 1) (13 :: b :: l) := by
  have hlt : head < tail := h.pos_lt (cons_ne_nil _ _)
  have hturn : utf8CrlfTurn sap tail eof head = _ := utf8CrlfTurn_cr h hb10
  cases eof with
  | true => exact iff_of_true ((utf8CharLoop_store_iff hlt hturn (by decide) hr).2 hscalar) (.inl rfl)
  | false =>
    refine iff_of_false (utf8CharLoop_incomplete (r := r.store index 13 _) hlt hturn hr) ?_
    have hisolated : Isolated (m + 1) (13 :: b :: l) := by
      refine ⟨0, m.succ_pos, rfl, fun heq => hb10 (Option.some.inj heq), fun k hk => ?_⟩
      match k, hk with
      | 0, _ => exact ⟨13, rfl, by decide⟩
      | 1, _ => exact ⟨b, rfl, hb⟩
    simpa using hisolated

theorem CopySpec.crlf (h : Left sap head tail (13 :: 10 :: l))
    (hr : CopySpec sized sap tail (m - 1) l (head + 2) (index + 1) r) :
    CopySpec sized sap tail (m + 1)
      (13 :: 10 :: l) head index (r.store index 10 (sizeStore sized 2)) where
  indices := indices_store hr.indices hr.index_le
  index_le := (le_succ index).trans hr.index_le
  head_le := (Nat.le_add_right head 2).trans hr.head_le
  bound := by
    have := hr.bound
    show r.index ≤ _
    omega
  overruns := by
    -- there is one character less than there are octets
    refine iff_of_false (fun heq => ?_) (by simp [Utf8.overruns])
    have hbound := hr.bound
    have hover := hr.overruns
    have heq' : r.index = index + (m + 1) + 1 := heq
    rcases m with _ | m
    · rw [overruns_take_one] at hover
      exact Bool.false_ne_true (hover.1 (by omega))
    · omega
  scalar eof := by
    have hlt : head < tail := h.pos_lt (cons_ne_nil _ _)
    refine ((utf8CharLoop_store_iff hlt (utf8CrlfTurn_crlf h) (by decide) hr.index_le).trans
      (hr.scalar eof)).trans ?_
    refine or_congr_right (not_congr ?_)
    rw [isolated_cons (by decide) fun _ => rfl]
    rcases m with _ | m
    · exact iff_of_false (not_isolated_zero _) (not_isolated_zero _)
    · exact (isolated_cons (by decide) fun heq => absurd heq (by decide)).symm
  unsplit := unsplit_append (o := [13, 10]) (.inl (by decide)) hr.head_le hr.unsplit

theorem CopySpec.beforeCr (h : Left sap head tail (a :: 13 :: l)) (ha : a.val < 128)
    (hr : CopySpec sized sap tail m (13 :: l) (head + 1) (index + 1) r) :
    CopySpec sized sap tail (m + 1)
      (a :: 13 :: l) head index (r.store index a (sizeStore sized 1)) where
  indices := indices_store hr.indices hr.index_le
  index_le := (le_succ index).trans hr.index_le
  head_le := (le_succ head).trans hr.head_le
  bound := by
    have := hr.bound
    show r.index ≤ _
    omega
  overruns := by
    rw [take_succ_cons, take_succ_cons, Utf8.overruns, if_neg (by simp; omega), if_pos rfl,
      ← take_succ_cons, ← hr.overruns]
    show r.index = _ ↔ _
    omega
  scalar := by
    by_cases ha13 : a = 13
    · subst ha13
      exact scalar_cr h (by decide) (by decide) hr.index_le ((hr.scalar true).2 (.inl rfl))
    · exact scalar_plain h ha ha13 hr.index_le hr.scalar
  unsplit := unsplit_append (o := [a]) (.inr (by simp)) hr.head_le hr.unsplit

theorem CopySpec.pair (h : Left sap head tail (a :: b :: l)) (ha : a.val < 128)
    (hb : b.val < 128) (hb13 : b ≠ 13) (hcrlf : ¬(a = 13 ∧ b = 10)) (hlength : m ≤ l.length)
    (hr : CopySpec sized sap tail (m - 1) l (head + 2) (index + 2) r) :
    CopySpec sized sap tail (m + 1) (a :: b :: l) head index
      (.store index a (sizeStore sized 1) (r.store (index + 1) b (sizeStore sized 1))) where
  indices := indices_store (indices_store hr.indices hr.index_le) ((le_succ _).trans hr.index_le)
  index_le := (Nat.le_add_right index 2).trans hr.index_le
  head_le := (Nat.le_add_right head 2).trans hr.head_le
  bound := by
    have hbound := hr.bound
    have hover := hr.overruns
    show r.index ≤ _
    rcases m with _ | m
    · rw [overruns_take_one] at hover
      have hne : r.index ≠ index + 2 + (0 - 1) + 1 := fun heq => Bool.false_ne_true (hover.1 heq)
      omega
    · omega
  overruns := by
    have hplain : ¬(128 ≤ a.val ∨ 128 ≤ b.val ∨ a = 13 ∧ b = 10) := by
      rintro (h | h | h)
      · exact absurd ha (not_lt.2 h)
      · exact absurd hb (not_lt.2 h)
      · exact hcrlf h
    have hbound := hr.bound
    have hover := hr.overruns
    have hle := hr.index_le
    rw [take_succ_cons, take_succ_cons, Utf8.overruns, if_neg hplain, if_neg hb13]
    show r.index = _ ↔ _
    rcases m with _ | m
    · -- the last pair: both of its characters are stored
      rw [overruns_take_one] at hover
      have hne : r.index ≠ index + 2 + (0 - 1) + 1 := fun heq => Bool.false_ne_true (hover.1 heq)
      exact iff_of_true (by omega) rfl
    have hne : (l.take (m + 1)).isEmpty = false := by
      rw [isEmpty_eq_false_iff]
      intro hnil
      have := congrArg List.length hnil
      rw [length_take, length_nil] at this
      omega
    rw [Nat.add_sub_cancel] at hover
    rw [hne, Bool.false_or, ← hover]
    omega
  scalar := by
    have hinner := scalar_plain h.cons hb hb13 hr.index_le hr.scalar
    have hle : index + 1 ≤ (r.store (index + 1) b (sizeStore sized 1)).index :=
      (le_succ _).trans hr.index_le
    by_cases ha13 : a = 13
    · subst ha13
      exact scalar_cr h hb (fun hb10 => hcrlf ⟨rfl, hb10⟩) hle ((hinner true).2 (.inl rfl))
    · exact scalar_plain h ha ha13 hle hinner
  unsplit := unsplit_append (o := [a, b]) (.inl (by simpa using hb13)) hr.head_le hr.unsplit

theorem simdCopyLoop_spec (hlow : low ≤ head) (h : Left sap head tail l) {endHead : ℤ}
    (hm : (endHead - head).toNat = m) (hlength : 0 < m → m < l.length) (index : ℕ) :
    ∃ r, simdCopyLoop sized sap low tail endHead head index = some r ∧
      CopySpec sized sap tail m l head index r := by
  induction m using Nat.strong_induction_on generalizing head l index with
  | _ m ih =>
    rw [simdCopyLoop]
    rcases Nat.eq_zero_or_pos m with h0 | hpos
    · subst h0
      exact ⟨_, if_neg (by omega), .nothing (overruns_take_one l) (not_isolated_zero l)⟩
    obtain ⟨a, b, rest, rfl⟩ : ∃ a b rest, l = a :: b :: rest := by
      match l, hlength hpos with
      | a :: b :: rest, _ => exact ⟨a, b, rest, rfl⟩
      | [_], hlt => exact absurd hlt (by simp; omega)
      | [], hlt => exact absurd hlt (by simp)
    obtain ⟨n, rfl⟩ := exists_eq_succ_of_ne_zero hpos.ne'
    have hlt : head < tail := by
      have := h.length
      rw [length_cons] at this
      omega
    rw [if_pos (by omega), sapRef16_left h hlow, bind_eq_bind, bind_some]
    by_cases hascii : a.val + 2 ^ 8 * b.val &&& asciiMask = 0
    · rw [if_neg (not_not.2 hascii)]
      rw [and_asciiMask_eq_zero] at hascii
      rw [length_cons, length_cons] at hlength
      by_cases hcrlf : a = 13 ∧ b = 10
      · obtain ⟨rfl, rfl⟩ := hcrlf
        obtain ⟨r, hr, hspec⟩ :=
          ih (n - 1) (by omega) (by omega) h.cons₂ (by omega) (by omega) (index + 1)
        rw [if_pos (by decide), hr]
        exact ⟨_, rfl, hspec.crlf h⟩
      have hword : ¬ a.val + 2 ^ 8 * b.val = 0x0A0D :=
        fun heq => hcrlf ⟨Fin.ext (by omega), Fin.ext (by omega)⟩
      have hlow8 : (a.val + 2 ^ 8 * b.val) % 2 ^ 8 = a.val := by omega
      have hhigh8 : (a.val + 2 ^ 8 * b.val) >>> 8 = b.val := by
        rw [shiftRight_eq_div_pow]
        omega
      rw [if_neg hword, hlow8, hhigh8]
      by_cases hb13 : b = 13
      · subst hb13
        obtain ⟨r, hr, hspec⟩ :=
          ih n (by omega) (by omega) h.cons (by omega) (by simp; omega) (index + 1)
        rw [if_pos (show (13 : Octet).val = 13 from rfl), hr]
        exact ⟨_, rfl, hspec.beforeCr h hascii.1⟩
      · obtain ⟨r, hr, hspec⟩ :=
          ih (n - 1) (by omega) (by omega) h.cons₂ (by omega) (by omega) (index + 2)
        rw [if_neg (show ¬ b.val = 13 from fun heq => hb13 (Fin.ext heq)), hr]
        exact ⟨_, rfl, hspec.pair h hascii.1 hascii.2 hb13 hcrlf (by omega)⟩
    · refine ⟨_, if_pos hascii, .nothing ?_ ?_⟩
      · rw [and_asciiMask_eq_zero] at hascii
        rw [take_succ_cons, take_succ_cons, overruns, if_pos (by omega)]
      rintro ⟨j, hj, -, -, hall⟩
      obtain ⟨o, ho, hlt⟩ := hall 0 (by omega)
      obtain rfl := Option.some.inj ho
      obtain ⟨o, ho, hlt'⟩ := hall 1 (by omega)
      obtain rfl := Option.some.inj ho
      exact hascii (and_asciiMask_eq_zero.2 ⟨hlt, hlt'⟩)

end

/-! ## Which octets overrun -/

/-- No line feed is behind a carriage return. -/
def NoCrlf (l : List Octet) : Prop := ∀ j : ℕ, l[j]? = some 13 → l[j + 1]? ≠ some 10

theorem noCrlf_cons {a : Octet} {l : List Octet} : NoCrlf (a :: l) ↔
    (a = 13 → l[0]? ≠ some 10) ∧ NoCrlf l := by
  refine ⟨fun h => ⟨fun ha => h 0 (congrArg some ha), fun j => h (j + 1)⟩, fun h j hcr => ?_⟩
  match j with
  | 0 => exact h.1 (Option.some.inj hcr)
  | j + 1 => exact h.2 j hcr

/-- The octets from the last carriage return on, or all of them, are an even number. -/
def EvenEnd : List Octet → Prop
  | [] => False
  | _ :: rest => if 13 ∈ rest then EvenEnd rest else (rest.length + 1) % 2 = 0

theorem overruns_iff (l : List Octet) : overruns l = true ↔ (∀ o ∈ l, o.val < 128) ∧
    NoCrlf l ∧ EvenEnd l := by
  fun_induction overruns l with
  | case1 a b rest hstop =>
    refine iff_of_false Bool.false_ne_true ?_
    rintro ⟨hascii, hcrlf, -⟩
    have ha := hascii a (by simp)
    have hb := hascii b (by simp)
    rcases hstop with h | h | ⟨rfl, rfl⟩
    · omega
    · omega
    · exact hcrlf 0 rfl rfl
  | case2 a rest hgo ih =>
    rw [ih, noCrlf_cons (a := a), EvenEnd.eq_def (a :: 13 :: rest)]
    dsimp only
    rw [if_pos mem_cons_self, forall_mem_cons (a := a)]
    have ha : a.val < 128 := by omega
    have hno : a = 13 → (13 :: rest)[0]? ≠ some (10 : Octet) := fun _ => by simp
    tauto
  | case3 a b rest hgo hb13 ih =>
    have ha : a.val < 128 := by omega
    have hb : b.val < 128 := by omega
    have hno : a = 13 → (b :: rest)[0]? ≠ some 10 :=
      fun ha13 heq => hgo (.inr (.inr ⟨ha13, Option.some.inj heq⟩))
    have hmem : 13 ∈ b :: rest ↔ 13 ∈ rest := by simp [Ne.symm hb13]
    have heven : EvenEnd (a :: b :: rest) ↔ rest = [] ∨ EvenEnd rest := by
      rw [EvenEnd, length_cons]
      by_cases hcr : 13 ∈ rest
      · rw [if_pos (hmem.2 hcr), EvenEnd, if_pos hcr]
        exact (or_iff_right (ne_nil_of_mem hcr)).symm
      rw [if_neg fun h => hcr (hmem.1 h)]
      rcases rest with _ | ⟨c, rest⟩
      · simp
      · rw [EvenEnd, if_neg fun h => hcr (mem_cons_of_mem _ h), length_cons]
        simp only [reduceCtorEq, false_or]
        omega
    have hempty : ∀ o ∈ ([] : List Octet), o.val < 128 := fun _ h => absurd h not_mem_nil
    have hempty' : NoCrlf [] := fun _ h => absurd h (by simp)
    rw [Bool.or_eq_true, ih, List.isEmpty_iff, noCrlf_cons, noCrlf_cons, heven, forall_mem_cons,
      forall_mem_cons]
    have hb13' : b = 13 → rest[0]? ≠ some 10 := fun heq => absurd heq hb13
    constructor
    · rintro (rfl | ⟨hascii, hcrlf, heven⟩)
      · exact ⟨⟨ha, hb, hempty⟩, ⟨hno, hb13', hempty'⟩, .inl rfl⟩
      · exact ⟨⟨ha, hb, hascii⟩, ⟨hno, hb13', hcrlf⟩, .inr heven⟩
    · rintro ⟨⟨-, -, hascii⟩, ⟨-, -, hcrlf⟩, hnil | heven⟩
      · exact .inl hnil
      · exact .inr ⟨hascii, hcrlf, heven⟩
  | case4 l hshort =>
    refine iff_of_false Bool.false_ne_true ?_
    rintro ⟨-, -, heven⟩
    match l, hshort with
    | [], _ => exact heven
    | [a], _ => simp [EvenEnd] at heven
    | a :: b :: rest, hshort => exact hshort a b rest rfl

theorem evenEnd_iff (l : List Octet) : EvenEnd l ↔
    (∃ k : ℕ, l[k]? = some 13 ∧ (∀ j, k < j → l[j]? ≠ some 13) ∧ (l.length - k) % 2 = 0) ∨
      13 ∉ l ∧ l ≠ [] ∧ l.length % 2 = 0 := by
  induction l with
  | nil => simp [EvenEnd]
  | cons a rest ih =>
    rw [EvenEnd]
    split_ifs with hcr
    · rw [ih]
      constructor
      · rintro (⟨k, hk, hlast, heven⟩ | ⟨hno, -⟩)
        · refine .inl ⟨k + 1, hk, fun j hj => ?_, by rw [length_cons]; omega⟩
          obtain ⟨j, rfl⟩ := exists_eq_succ_of_ne_zero (by omega : j ≠ 0)
          exact hlast j (by omega)
        · exact absurd hcr hno
      · rintro (⟨k, hk, hlast, heven⟩ | ⟨hno, -⟩)
        · rcases k with _ | k
          · obtain ⟨j, hj⟩ := mem_iff_getElem?.1 hcr
            exact absurd hj (hlast (j + 1) j.succ_pos)
          · exact .inl ⟨k, hk,
              fun j hj => hlast (j + 1) (by omega), by rw [length_cons] at heven; omega⟩
        · exact absurd (mem_cons_of_mem a hcr) hno
    · rw [length_cons]
      have hrest : ∀ j : ℕ, rest[j]? ≠ some 13 := fun j hj => hcr (mem_iff_getElem?.2 ⟨j, hj⟩)
      constructor
      · intro heven
        by_cases ha : a = 13
        · refine .inl ⟨0, congrArg some ha, fun j hj => ?_, heven⟩
          obtain ⟨j, rfl⟩ := exists_eq_succ_of_ne_zero hj.ne'
          exact hrest j
        · exact .inr ⟨by simp [Ne.symm ha, hcr], cons_ne_nil _ _, heven⟩
      · rintro (⟨k, hk, -, heven⟩ | ⟨-, -, heven⟩)
        · rcases k with _ | k
          · exact heven
          · exact absurd hk (hrest k)
        · exact heven

/-! ## The copies -/

/-- The last pair is stored behind the end of an even room: more octets are there, all of them up to
the one behind it are ASCII without CR LF, and the last carriage return among them is at an odd
offset. -/
def LastPairBehind (room : ℕ) (l : List Octet) : Prop :=
  room % 2 = 0 ∧ room < l.length ∧ (∀ o ∈ l.take (room + 1), o.val < 128) ∧
    NoCrlf (l.take (room + 1)) ∧
    ∃ k, k % 2 = 1 ∧ k ≤ room ∧ l[k]? = some 13 ∧ ∀ j, k < j → j ≤ room → l[j]? ≠ some 13

theorem lastPairBehind_iff (room : ℕ) (l : List Octet) :
    LastPairBehind room l ↔ room % 2 = 0 ∧ room < l.length ∧
    overruns (l.take (room + 1)) = true := by
  refine and_congr_right fun heven => and_congr_right fun hlt => ?_
  have hlength : (l.take (room + 1)).length = room + 1 := by
    rw [length_take]
    omega
  rw [overruns_iff, evenEnd_iff, hlength]
  refine and_congr_right fun _ => and_congr_right fun _ => ?_
  simp only [getElem?_take]
  constructor
  · rintro ⟨k, hodd, hle, hk, hlast⟩
    refine .inl ⟨k, by rwa [if_pos (by omega)], fun j hj => ?_, by omega⟩
    split_ifs with hjroom
    · exact hlast j hj (by omega)
    · simp
  · rintro (⟨k, hk, hlast, hodd⟩ | ⟨-, -, hodd⟩)
    · split_ifs at hk with hle
      refine ⟨k, by omega, by omega, hk, fun j hj hjroom => ?_⟩
      have := hlast j hj
      rwa [if_pos (by omega)] at this
    · omega

theorem logand_neg_two (x : ℤ) : logand x (-2) = x - x % 2 := by
  have h : logand x (-(2 ^ 1)) = x / 2 ^ 1 * 2 ^ 1 := by
    refine IntBits.eq_of_testBit_eq fun i => ?_
    rw [logand, Int.testBit_land, IntBits.testBit_neg_pow, IntBits.testBit_mul,
      IntBits.testBit_ediv]
    by_cases hi : 1 ≤ i
    · rw [Nat.sub_add_cancel hi, Bool.and_comm]
    · simp [hi]
  rw [show (-2 : ℤ) = -(2 ^ 1) by decide, h, pow_one]
  omega

/-- What the copies are to do: all stores are in the range, and what is left is what the loop of one
character leaves after as many characters. -/
def SafePrefix (sized eof : Bool) (sap : List Octet) (start stop head tail : ℕ)
    (r : Copied) : Prop :=
  (∀ s ∈ r.stores, start ≤ s.index ∧ s.index < stop) ∧ r.index ≤ stop ∧
    utf8CharLoop sized sap tail eof (r.index - start) head start = some r

theorem simdCopy_safePrefix_iff (sized eof : Bool) {sap : List Octet} {start stop head tail : ℕ}
    {l : List Octet} (hstop : start ≤ stop) (h : Left sap head tail l) :
    ∃ r, simdCopy sized sap tail start stop head = some r ∧
      (∀ k, r.head = head + (k + 1) → l[k]? = some 13 → l[k + 1]? ≠ some 10) ∧
      (SafePrefix sized eof sap start stop head tail r ↔
        ¬ LastPairBehind (stop - start) l ∧
        (eof = true ∨ ¬ Isolated (copyLength start stop head tail).toNat l)) := by
  have hlength := h.length
  have hle := h.le
  have hcopy : copyLength start stop head tail = _ := logand_neg_two _
  obtain ⟨m, hm⟩ : ∃ m, (copyLength start stop head tail).toNat = m := ⟨_, rfl⟩
  have hmlt : 0 < m → m < l.length := by omega
  obtain ⟨r, hr, hspec⟩ := @simdCopyLoop_spec sized sap head tail head m l (le_refl head) h
    (head + copyLength start stop head tail) (by rw [add_sub_cancel_left, hm]) hmlt start
  refine ⟨r, hr, hspec.unsplit, ?_⟩
  have hbound := hspec.bound
  have hover := hspec.overruns
  have hindex : r.index ≤ stop ↔ ¬ LastPairBehind (stop - start) l := by
    rw [lastPairBehind_iff]
    rcases eq_or_ne m (stop - start) with heq | hne
    · -- nothing of the room is left over
      rw [heq] at hbound hover hmlt
      rw [← hover]
      rcases Nat.eq_zero_or_pos (stop - start) with h0 | hpos
      · rw [h0, overruns_take_one] at hover
        have hbehind : r.index ≠ start + 0 + 1 :=
          fun hbehind => Bool.false_ne_true (hover.1 hbehind)
        omega
      · have := hmlt hpos
        omega
    · refine iff_of_true (by omega) ?_
      rintro ⟨heven, hlt, -⟩
      omega
  have hstores : (∀ s ∈ r.stores, start ≤ s.index ∧ s.index < stop) ↔ r.index ≤ stop := by
    have hmem : ∀ i, i ∈ r.stores.map Store.index ↔ start ≤ i ∧ i < r.index := by
      intro i
      rw [hspec.indices, mem_range'_1]
      omega
    refine ⟨fun hin => Nat.le_of_not_lt fun hlt => ?_, fun hle s hs => ?_⟩
    · obtain ⟨s, hs, heq⟩ := mem_map.1 ((hmem stop).2 ⟨hstop, hlt⟩)
      exact (hin s hs).2.ne heq
    · obtain ⟨hlow, hlt⟩ := (hmem s.index).1 (mem_map_of_mem hs)
      exact ⟨hlow, hlt.trans_le hle⟩
  rw [SafePrefix, hstores, hindex, hspec.scalar, hm]
  tauto

/-- The three copies, with whether they store sizes. -/
def crlfCopies : List (Bool × (ℕ → ℕ → List Octet → ℕ → ℕ → Option Copied)) :=
  [(true, simdCopyUtf8CrlfToCharacterStringWithSize), (false, simdCopyUtf8CrlfToCharacterString),
    (false, simdCopyUtf8CrlfToBaseString)]

/-- A copy reads no octet outside the buffer and splits no CR LF. It is a safe prefix of the loop of
one character if and only if its last pair is not stored behind the end; of the loop without `eof`,
if it copies no isolated carriage return either. -/
theorem crlf_copy_iff (eof : Bool) {sap : List Octet} {start stop head tail : ℕ}
    (hstop : start ≤ stop) (hhead : head ≤ tail) (htail : tail ≤ sap.length) :
    ∀ copy ∈ crlfCopies, ∃ r, copy.2 start stop sap head tail = some r ∧
      (∀ k, r.head = head + (k + 1) → ((sap.take tail).drop head)[k]? = some 13 →
        ((sap.take tail).drop head)[k + 1]? ≠ some 10) ∧
      (SafePrefix copy.1 eof sap start stop head tail r ↔
        ¬ LastPairBehind (stop - start) ((sap.take tail).drop head) ∧
          (eof = true ∨
            ¬ Isolated (copyLength start stop head tail).toNat ((sap.take tail).drop head))) := by
  have hleft := left_intro sap hhead htail
  intro copy hcopy
  unfold crlfCopies at hcopy
  rcases mem_cons.1 hcopy with rfl | hcopy
  · exact simdCopy_safePrefix_iff true eof hstop hleft
  rcases mem_cons.1 hcopy with rfl | hcopy
  · exact simdCopy_safePrefix_iff false eof hstop hleft
  · obtain rfl := mem_singleton.1 hcopy
    exact simdCopy_safePrefix_iff false eof hstop hleft

/-- A line of four octets with its CR LF, into a string of five characters. -/
theorem crlf_copy_iff_line :
    ∃ r, simdCopyUtf8CrlfToCharacterString 0 5 [97, 98, 99, 13, 10, 100] 0 6 = some r ∧
      (SafePrefix false false [97, 98, 99, 13, 10, 100] 0 5 0 6 r ↔
        ¬ LastPairBehind 5 [97, 98, 99, 13, 10, 100] ∧
          (false = true ∨ ¬ Isolated (copyLength 0 5 0 6).toNat [97, 98, 99, 13, 10, 100])) := by
  obtain ⟨r, hr, -, hiff⟩ :=
    @crlf_copy_iff false [97, 98, 99, 13, 10, 100] 0 5 0 6 (by decide) (by decide) (by decide)
    (false, simdCopyUtf8CrlfToCharacterString) (by simp [crlfCopies])
  exact ⟨r, hr, hiff⟩

/-- `a`, a carriage return, `b` and `c` into two characters: the first pair is `a` alone, and the
second one is stored at 1 and at 2. -/
theorem crlf_copy_behind :
    ∃ r, simdCopyUtf8CrlfToCharacterString 0 2 [97, 13, 98, 99] 0 4 = some r ∧
      r.stores = [⟨0, 97, none⟩, ⟨1, 13, none⟩, ⟨2, 98, none⟩] ∧ ¬ r.index ≤ 2 :=
  ⟨⟨[⟨0, 97, none⟩, ⟨1, 13, none⟩, ⟨2, 98, none⟩], 3, 3⟩, by decide +kernel, rfl, by decide⟩

end Sbcl.Utf8
