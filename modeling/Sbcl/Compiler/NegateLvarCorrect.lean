import Sbcl.Compiler.NegateLvar
import Sbcl.Compiler.RoundingBoundsCorrect

/-!
# A pushed negation is the negation

* `Env`, `Lvar.eval` : the value of a tree on rational numbers, for values of the leaves and an
  executed use for each branch; a division by zero, a value that a cast rejects and a count outside
  its type have none;
* `Opposite`, `Turned` : the negation of a value, or a value of its magnitude where any branch may
  be negated;
* `Sound` : what the three ways of running the pass have to do with each other;
* `negateLvar_sound` : the pass, by induction on the tree;
* `negation_preserves_value` : the pass and its transforms, for every tree.
-/

namespace Sbcl.Compiler.Negation

open Option Int

variable {anyBranch : Bool} {a : ℚ}

/-- `round` of a rational number: the nearest integer, and of two the even one. -/
def roundRational (a : ℚ) : ℤ :=
  if a - ⌊a⌋ < 1 / 2 ∨ a - ⌊a⌋ = 1 / 2 ∧ Even ⌊a⌋ then ⌊a⌋ else ⌊a⌋ + 1

theorem truncateRational_neg (a : ℚ) : truncateRational (-a) = -truncateRational a := by
  rcases le_total 0 a with h | h
  · rw [truncateRational_of_nonpos (neg_nonpos.2 h), truncateRational_of_nonneg h, ceil_neg]
  · rw [truncateRational_of_nonneg (neg_nonneg.2 h), truncateRational_of_nonpos h, floor_neg]

theorem roundRational_intCast (n : ℤ) : roundRational n = n := by
  unfold roundRational
  rw [floor_intCast, sub_self, if_pos (.inl (by norm_num))]

theorem floor_neg_of_ne (h : a ≠ ⌊a⌋) : ⌊-a⌋ = -⌊a⌋ - 1 := by
  have hlow := lt_of_le_of_ne (floor_le a) (Ne.symm h)
  have hhigh := lt_floor_add_one a
  rw [floor_eq_iff]
  push_cast
  constructor <;> linarith

theorem roundRational_neg (a : ℚ) : roundRational (-a) = -roundRational a := by
  by_cases h : a = ⌊a⌋
  · rw [h, ← cast_neg, roundRational_intCast, roundRational_intCast]
  have hparity : Even (-⌊a⌋ - 1) ↔ ¬Even ⌊a⌋ := by grind
  unfold roundRational
  rw [floor_neg_of_ne h]
  simp only [hparity]
  generalize ⌊a⌋ = q
  push_cast
  rcases lt_trichotomy (a - q) (1 / 2) with hlt | heq | hgt
  · rw [if_neg, if_pos (.inl hlt)]
    · ring
    · rintro (h | ⟨h, -⟩) <;> linarith
  · have hneg : -a - (-(q : ℚ) - 1) = 1 / 2 := by linarith
    rw [heq, hneg]
    split_ifs <;> grind
  · rw [if_pos (.inl (by linarith)), if_neg]
    · ring
    · rintro (h | ⟨h, -⟩) <;> linarith

/-! ## Values -/

/-- The values of the leaves, and the use that each branch has executed. -/
structure Env (ν β : Type) where
  value : ν → ℚ
  branch : β → ℕ

def NumericClass.Accepts : NumericClass → ℚ → Prop
  | .integer, v => v.den = 1
  | .rational, _ => True
  | .float, _ => False
  | .number, _ => True

def CheckedMember.Accepts : CheckedMember → ℚ → Prop
  | .numeric type, v => type.numericClass.Accepts v ∧ (∀ l ∈ type.low, l.Below v) ∧
  ∀ h ∈ type.high, h.Above v
  | .other accepts, v => accepts v

def TypeToCheck.Accepts (type : TypeToCheck) (v : ℚ) : Prop := ∃ member ∈ type, member.Accepts v

instance : ∀ (c : NumericClass) (v : ℚ), Decidable (c.Accepts v)
  | .integer, v => inferInstanceAs (Decidable (v.den = 1))
  | .rational, _ | .number, _ => .isTrue trivial
  | .float, _ => .isFalse id

instance : ∀ (m : CheckedMember) (v : ℚ), Decidable (m.Accepts v)
  | .numeric _, _ => inferInstanceAs (Decidable (_ ∧ _ ∧ _))
  | .other accepts, v => inferInstanceAs (Decidable (accepts v = true))

instance (type : TypeToCheck) (v : ℚ) : Decidable (type.Accepts v) :=
  inferInstanceAs (Decidable (∃ m ∈ type, m.Accepts v))

/-- The first value of a division that rounds its quotient. -/
def quotient (rounding : ℚ → ℤ) (a b : ℚ) : Option ℚ :=
  if b = 0 then none else some (rounding (a / b))

def UnaryOp.apply : UnaryOp → ℚ → ℚ
  | .negate, a => -a
  | .unaryTruncate, a => truncateRational a
  | .unaryRound, a => roundRational a
  | .identity, a => a

def BinaryOp.apply : BinaryOp → ℚ → ℚ → Option ℚ
  | .add, a, b => some (a + b)
  | .sub, a, b => some (a - b)
  | .mul, a, b => some (a * b)
  | .div, a, b => if b = 0 then none else some (a / b)
  | .truncate, a, b => quotient truncateRational a b
  | .round, a, b => quotient roundRational a b
  | .floor, a, b => quotient Int.floor a b
  | .ceiling, a, b => quotient Int.ceil a b
  | .ash countUnsigned _, a, b =>
    if a.den = 1 ∧ b.den = 1 ∧ (countUnsigned = true → 0 ≤ b) then some ⌊a * 2 ^ b.num⌋ else none

variable {ν β : Type}

mutual

def Lvar.eval (env : Env ν β) : Lvar ν β → Option ℚ
  | .single _ use => use.eval env
  | .several _ branch uses => uses.eval env (env.branch branch)

def Node.eval (env : Env ν β) : Node ν β → Option ℚ
  | .constant value => some value
  | .leaf name => some (env.value name)
  | .combination call => call.eval env
  | .cast typeToCheck value => (value.eval env).bind fun v =>
    if typeToCheck.Accepts v then some v else none

def Combination.eval (env : Env ν β) : Combination ν β → Option ℚ
  | .unary op x => (x.eval env).map op.apply
  | .binary op x y => (x.eval env).bind fun a => (y.eval env).bind fun b => op.apply a b

/-- The value of the use at an index. -/
def Uses.eval (env : Env ν β) : Uses ν β → ℕ → Option ℚ
  | .nil, _ => none
  | .cons _ use _, 0 => use.eval env
  | .cons _ _ rest, i + 1 => rest.eval env i

end

/-- `b` is the negation of `a`, or has its magnitude where any branch may be negated. -/
def Opposite (anyBranch : Bool) (a b : ℚ) : Prop := if anyBranch then |b| = |a| else b = -a

/-- Where `v` is a value so is `w`, and it is opposite. -/
def Turned (anyBranch : Bool) (v w : Option ℚ) : Prop := ∀ a ∈ v, ∃ b ∈ w, Opposite anyBranch a b

theorem opposite_neg (anyBranch : Bool) (a : ℚ) : Opposite anyBranch a (-a) := by
  cases anyBranch with
  | false => rfl
  | true => exact abs_neg a

variable {b : ℚ}

theorem Opposite.eq (h : Opposite false a b) : b = -a := h

theorem Opposite.eq_or_neg (h : Opposite anyBranch a b) : b = -a ∨ anyBranch = true ∧ b = a := by
  cases anyBranch with
  | false => exact .inl h
  | true =>
    rcases abs_eq_abs.1 (show |b| = |a| from h) with rfl | rfl
    · exact .inr ⟨rfl, rfl⟩
    · exact .inl rfl

theorem opposite_self : Opposite true a a := rfl

theorem Opposite.map (f : ℚ → ℚ) (hf : ∀ a, f (-a) = -f a) (h : Opposite anyBranch a b) :
    Opposite anyBranch (f a) (f b) := by
  rcases h.eq_or_neg with rfl | ⟨rfl, rfl⟩
  · rw [hf]
    exact opposite_neg _ _
  · exact opposite_self

theorem turned_self (v : Option ℚ) : Turned true v v := fun a ha => ⟨a, ha, opposite_self⟩

theorem Turned.map {v w : Option ℚ} (f : ℚ → ℚ) (hf : ∀ a, f (-a) = -f a)
    (h : Turned anyBranch v w) : Turned anyBranch (v.map f) (w.map f) := by
  intro a ha
  obtain ⟨c, hc, rfl⟩ := mem_map.1 ha
  obtain ⟨b, hb, hcb⟩ := h c hc
  exact ⟨f b, mem_map_of_mem f hb, hcb.map f hf⟩

theorem Turned.bind {v w : Option ℚ} {f g : ℚ → Option ℚ} (h : Turned anyBranch v w)
    (hfg : ∀ a b, Opposite anyBranch a b → Turned anyBranch (f a) (g b)) :
    Turned anyBranch (v.bind f) (w.bind g) := by
  intro c hc
  obtain ⟨a, ha, hc⟩ := mem_bind_iff.1 hc
  obtain ⟨b, hb, hab⟩ := h a ha
  obtain ⟨d, hd, hcd⟩ := hfg a b hab c hc
  exact ⟨d, mem_bind_iff.2 ⟨b, hb, hd⟩, hcd⟩

/-! ## Operations -/

/-- The negation of an argument of `op` is answered by `op'` with the negation of the value. -/
structure Odd (op op' : BinaryOp) : Prop where
  first : ∀ {a b c : ℚ}, c ∈ op.apply a b → -c ∈ op'.apply (-a) b
  second : ∀ {a b c : ℚ}, c ∈ op.apply a b → -c ∈ op'.apply a (-b)

variable {r : ℚ → ℤ} {c : ℚ}

theorem mem_quotient : c ∈ quotient r a b ↔ b ≠ 0 ∧ c = r (a / b) := by
  unfold quotient
  split_ifs with h <;> simp [h, eq_comm]

variable {op op' : BinaryOp}

theorem odd_of_quotient {r' : ℚ → ℤ} (hop : op.apply = quotient r) (hop' : op'.apply = quotient r')
    (hr : ∀ a, r' (-a) = -r a) : Odd op op' := by
  constructor <;> intro a b c hc <;> rw [hop, mem_quotient] at hc <;> rw [hop', mem_quotient]
  · refine ⟨hc.1, ?_⟩
    rw [neg_div, hr, cast_neg, hc.2]
  · refine ⟨neg_ne_zero.2 hc.1, ?_⟩
    rw [div_neg, hr, cast_neg, hc.2]

theorem odd_mul : Odd .mul .mul := by
  constructor <;> rintro a b c ⟨⟩
  · exact congrArg some (neg_mul a b)
  · exact congrArg some (mul_neg a b)

theorem odd_div : Odd .div .div := by
  constructor <;> intro a b c hc <;> simp only [BinaryOp.apply, mem_def, neg_eq_zero] at hc ⊢ <;>
    split_ifs at hc ⊢ with hb <;> cases hc
  · rw [neg_div]
  · rw [div_neg]

theorem odd_truncate : Odd .truncate .truncate := odd_of_quotient rfl rfl truncateRational_neg

theorem odd_round : Odd .round .round := odd_of_quotient rfl rfl roundRational_neg

theorem odd_floor : Odd .floor .ceiling := odd_of_quotient rfl rfl fun _ => ceil_neg

theorem odd_ceiling : Odd .ceiling .floor := odd_of_quotient rfl rfl fun _ => floor_neg

variable {cu ws : Bool}

theorem mem_ash :
    c ∈ (BinaryOp.ash cu ws).apply a b ↔ (a.den = 1 ∧ b.den = 1 ∧ (cu = true → 0 ≤ b)) ∧
    c = ⌊a * 2 ^ b.num⌋ := by
  rw [BinaryOp.apply]
  split_ifs with h
  · rw [and_iff_right h, mem_def, some_inj, eq_comm]
  · exact ⟨nofun, fun hc => absurd hc.1 h⟩

/-- A shift to the left drops nothing, so that it is odd. -/
theorem ash_neg (hc : c ∈ (BinaryOp.ash true ws).apply a b) :
    -c ∈ (BinaryOp.ash true ws).apply (-a) b := by
  obtain ⟨⟨ha, hb, hb0⟩, rfl⟩ := mem_ash.1 hc
  refine mem_ash.2 ⟨⟨by rwa [Rat.neg_den], hb, hb0⟩, ?_⟩
  obtain ⟨n, hn⟩ := eq_ofNat_of_zero_le (Rat.num_nonneg.2 (hb0 rfl))
  have hint : a * 2 ^ b.num = ((a.num * 2 ^ n : ℤ) : ℚ) := by
    rw [hn, zpow_natCast, ← Rat.coe_int_num_of_den_eq_one ha]
    simp
  rw [neg_mul, hint, floor_intCast, ← cast_neg, floor_intCast]

theorem ceiling_of_ash (hb : b ≤ -1) (hc : c ∈ (BinaryOp.ash cu ws).apply a b) :
    -c ∈ BinaryOp.ceiling.apply (-a) (2 ^ (-b.num).toNat) := by
  obtain ⟨⟨ha, hden, -⟩, rfl⟩ := mem_ash.1 hc
  have hnum : b.num ≤ 0 := Rat.num_nonpos.2 (by linarith)
  have hpow : (2 : ℚ) ^ b.num = (2 ^ (-b.num).toNat)⁻¹ := by
    rw [← zpow_natCast, toNat_of_nonneg (by omega), zpow_neg, inv_inv]
  refine mem_quotient.2 ⟨by positivity, ?_⟩
  rw [neg_div, ceil_neg, cast_neg, hpow, div_eq_mul_inv]

/-! ## Trees that are negated -/

def Lvar.TurnsTo (anyBranch : Bool) (x x' : Lvar ν β) : Prop :=
  ∀ env, Turned anyBranch (x.eval env) (x'.eval env)

def Node.TurnsTo (anyBranch : Bool) (x x' : Node ν β) : Prop :=
  ∀ env, Turned anyBranch (x.eval env) (x'.eval env)

def Uses.TurnsTo (anyBranch : Bool) (x x' : Uses ν β) : Prop :=
  ∀ env i, Turned anyBranch (x.eval env i) (x'.eval env i)

/-- One of two arguments is negated, and the other is as it was. -/
def ArgsTurnTo (p p' : Lvar ν β × Lvar ν β) : Prop :=
  p.1.TurnsTo false p'.1 ∧ p'.2 = p.2 ∨ p'.1 = p.1 ∧ p.2.TurnsTo false p'.2

variable {x : Lvar ν β} {env : Env ν β}

theorem Lvar.TurnsTo.mem {x' : Lvar ν β} (h : x.TurnsTo false x') {a : ℚ} (ha : a ∈ x.eval env) :
    -a ∈ x'.eval env := by
  obtain ⟨b, hb, hab⟩ := h env a ha
  rwa [hab.eq] at hb

variable {y : Lvar ν β}

theorem mem_eval_binary :
    c ∈ (Node.combination (.binary op x y)).eval env ↔ ∃ a ∈ x.eval env, ∃ b ∈ y.eval env,
      c ∈ op.apply a b := by
  show c ∈ (x.eval env).bind _ ↔ _
  simp only [mem_bind_iff]

theorem Odd.turnsTo (h : Odd op op') (anyBranch : Bool) {p p' : Lvar ν β × Lvar ν β}
    (hp : ArgsTurnTo p p') :
    (Node.combination (.binary op p.1 p.2)).TurnsTo anyBranch
      (.combination (.binary op' p'.1 p'.2)) := by
  intro env c hc
  obtain ⟨a, ha, b, hb, hc⟩ := mem_eval_binary.1 hc
  refine ⟨-c, mem_eval_binary.2 ?_, opposite_neg _ _⟩
  rcases hp with ⟨hx, hy⟩ | ⟨hx, hy⟩
  · exact ⟨-a, hx.mem ha, b, hy ▸ hb, h.first hc⟩
  · exact ⟨a, hx ▸ ha, -b, hy.mem hb, h.second hc⟩

variable {v : ℚ}

theorem Uses.constant_eval {uses : Uses ν β} (h : uses.constant = some c) {i : ℕ}
    (hv : v ∈ uses.eval env i) : v = c := by
  induction uses using Uses.constant.induct generalizing i with
  | case1 n d =>
    cases h
    cases i with
    | zero =>
      cases hv
      rfl
    | succ i => cases hv
  | case2 n d rest hrest heq ih =>
    rw [Uses.constant.eq_2 _ _ _ hrest, if_pos heq] at h
    cases h
    cases i with
    | zero =>
      cases hv
      rfl
    | succ i => exact ih heq hv
  | case3 n d rest hrest hne ih =>
    rw [Uses.constant.eq_2 _ _ _ hrest, if_neg hne] at h
    cases h
  | case4 uses hone hmany =>
    rw [Uses.constant.eq_3 _ hone hmany] at h
    cases h

theorem Lvar.constant_eval (h : x.constant = some c) (hv : v ∈ x.eval env) :
    v = c := by
  cases x with
  | single type use =>
    cases use with
    | constant d =>
      cases h
      cases hv
      rfl
    | _ => cases h
  | several type branch uses => exact Uses.constant_eval h hv

theorem accepts_neg {type : TypeToCheck} (h : numericTypeWithoutBoundsP type = true)
    (hv : type.Accepts v) : type.Accepts (-v) := by
  obtain ⟨member, hmem, hv⟩ := hv
  refine ⟨member, hmem, ?_⟩
  have hmember := List.all_eq_true.1 h member hmem
  cases member with
  | other accepts => cases hmember
  | numeric type =>
    obtain ⟨hlow, hhigh⟩ : type.low = none ∧ type.high = none := by simpa using hmember
    refine ⟨?_, by simp [hlow], by simp [hhigh]⟩
    have hclass := hv.1
    cases hc : type.numericClass with
    | integer =>
      rw [hc] at hclass
      exact (Rat.neg_den v).trans hclass
    | float =>
      rw [hc] at hclass
      exact hclass
    | rational => trivial
    | number => trivial

variable {use : Node ν β}

theorem cast_turnsTo {anyBranch : Bool} {check : TypeToCheck}
    (h : numericTypeWithoutBoundsP check = true) {type : LvarType}
    {use' : Node ν β} (hx : use.TurnsTo anyBranch use') :
    (Node.cast check (.single type use)).TurnsTo anyBranch (.cast check (.single type use')) := by
  intro env
  apply (hx env).bind
  intro a b hab c hc
  split_ifs at hc with ha
  · cases hc
    have hb : check.Accepts b := by
      rcases hab.eq_or_neg with rfl | ⟨-, rfl⟩
      · exact accepts_neg h ha
      · exact ha
    exact ⟨b, if_pos hb, hab⟩
  · cases hc

theorem unary_turnsTo {anyBranch : Bool} {op : UnaryOp} (hop : ∀ a, op.apply (-a) = -op.apply a)
    {x' : Lvar ν β} (hx : x.TurnsTo anyBranch x') :
    (Node.combination (.unary op x)).TurnsTo anyBranch (.combination (.unary op x')) := by
  intro env
  exact (hx env).map op.apply hop

theorem unaryTruncate_neg (a : ℚ) :
    UnaryOp.unaryTruncate.apply (-a) = -UnaryOp.unaryTruncate.apply a := by
  simp only [UnaryOp.apply, truncateRational_neg, cast_neg]

theorem unaryRound_neg (a : ℚ) : UnaryOp.unaryRound.apply (-a) = -UnaryOp.unaryRound.apply a := by
  simp only [UnaryOp.apply, roundRational_neg, cast_neg]

theorem mem_eval_unary {op : UnaryOp} :
    c ∈ (Node.combination (.unary op x)).eval env ↔ ∃ a ∈ x.eval env, op.apply a = c := by
  exact mem_map

theorem negate_turnsTo (anyBranch : Bool) (x : Lvar ν β) :
    (Node.combination (.unary .negate x)).TurnsTo anyBranch
      (.combination (.unary .identity x)) := by
  intro env c hc
  obtain ⟨a, ha, rfl⟩ := mem_eval_unary.1 hc
  refine ⟨a, mem_eval_unary.2 ⟨a, ha, rfl⟩, ?_⟩
  have h := opposite_neg anyBranch (-a)
  rwa [neg_neg] at h

theorem minusOne_turnsTo (anyBranch : Bool) {op : UnaryOp} (hop : ∀ a, op.apply a = r a)
    (hop' : op'.apply = quotient r) (hr : ∀ a, r (-a) = -r a) (x : Lvar ν β) :
    (Node.combination (.unary op x)).TurnsTo anyBranch
      (.combination (.binary op' x (constantArg (-1)))) := by
  intro env c hc
  obtain ⟨a, ha, rfl⟩ := mem_eval_unary.1 hc
  refine ⟨_, mem_eval_binary.2 ⟨a, ha, -1, rfl, ?_⟩, opposite_neg _ _⟩
  rw [hop', mem_quotient, hop, div_neg, div_one, hr, cast_neg]
  exact ⟨by norm_num, rfl⟩

theorem sub_turnsTo (anyBranch : Bool) (x y : Lvar ν β) :
    (Node.combination (.binary .sub x y)).TurnsTo anyBranch (.combination (.binary .sub y x)) := by
  intro env c hc
  obtain ⟨a, ha, b, hb, ⟨⟩⟩ := mem_eval_binary.1 hc
  refine ⟨_, mem_eval_binary.2 ⟨b, hb, a, ha, rfl⟩, ?_⟩
  rw [← neg_sub a b]
  exact opposite_neg _ _

theorem add_turnsTo (anyBranch : Bool) (x y : Lvar ν β) :
    (Node.combination (.binary .add x y)).TurnsTo anyBranch
      (.combination (.binary .sub (callArg (.unary .negate y)) x)) := by
  intro env c hc
  obtain ⟨a, ha, b, hb, ⟨⟩⟩ := mem_eval_binary.1 hc
  refine ⟨_, mem_eval_binary.2 ⟨-b, mem_eval_unary.2 ⟨b, hb, rfl⟩, a, ha, rfl⟩, ?_⟩
  rw [show -b - a = -(a + b) by ring]
  exact opposite_neg _ _

theorem ash_turnsTo {anyBranch : Bool} {x' : Lvar ν β} (hx : x.TurnsTo anyBranch x')
    (y : Lvar ν β) :
    (Node.combination (.binary (.ash true ws) x y)).TurnsTo anyBranch
      (.combination (.binary (.ash true ws) x' y)) := by
  intro env c hc
  obtain ⟨a, ha, b, hb, hc⟩ := mem_eval_binary.1 hc
  obtain ⟨a', ha', haa'⟩ := hx env a ha
  rcases haa'.eq_or_neg with rfl | ⟨rfl, rfl⟩
  · exact ⟨-c, mem_eval_binary.2 ⟨-a, ha', b, hb, ash_neg hc⟩, opposite_neg _ _⟩
  · exact ⟨c, mem_eval_binary.2 ⟨a', ha', b, hb, hc⟩, opposite_self⟩

theorem ash_turnsTo_ceiling (anyBranch : Bool) {x' : Lvar ν β} {shift : ℚ}
    (hy : y.constant = some shift) (hshift : shift ≤ -1) (hx : x.TurnsTo false x') :
    (Node.combination (.binary (.ash cu ws) x y)).TurnsTo anyBranch
      (.combination (.binary .ceiling x' (constantArg (2 ^ (-shift.num).toNat)))) := by
  intro env c hc
  obtain ⟨a, ha, b, hb, hc⟩ := mem_eval_binary.1 hc
  rw [Lvar.constant_eval hy hb] at hc
  exact ⟨-c, mem_eval_binary.2 ⟨-a, hx.mem ha, _, rfl, ceiling_of_ash hshift hc⟩, opposite_neg _ _⟩

/-! ## The three ways of running the pass -/

/-- Either no run succeeds and none changes what it is run on, or every run succeeds: asking changes
nothing, rewriting leaves something related to the start, and so does a run that reports a removed
`%negate`. -/
inductive Sound {α : Type} (R : α → α → Prop) (x : α) (run : Test → Except Failure (Outcome α)) :
    Prop where
  | fails (h : ∀ test, run test = .ok (none, x))
  | succeeds (ask : ∃ kind, run .ask = .ok (some kind, x)) (rewrite : ∃ kind x',
    run .rewrite = .ok (some kind, x') ∧ R x x')
      (remove : run .remove = .ok (some .t, x) ∨ ∃ x',
        run .remove = .ok (some .negate, x') ∧ R x x')

section Sound

variable {α γ : Type} {R : α → α → Prop} {S : γ → γ → Prop} {x : α}
    {run : Test → Except Failure (Outcome α)}

theorem Sound.transform (h : Sound R x run) (f : Bool → α → γ)
    (hf : ∀ x', R x x' → S (f false x) (f true x')) :
    Sound S (f false x) fun test => run test >>= fun r =>
      pure (r.1, f (transforms test r.1) r.2) := by
  cases h with
  | fails h =>
    apply Sound.fails
    intro test
    rw [h test]
    rfl
  | succeeds ask rewrite remove =>
    obtain ⟨kind, hask⟩ := ask
    obtain ⟨kind', x', hrewrite, hx'⟩ := rewrite
    apply Sound.succeeds
    · rw [hask]
      exact ⟨kind, rfl⟩
    · rw [hrewrite]
      exact ⟨kind', _, rfl, hf x' hx'⟩
    rcases remove with hremove | ⟨x'', hremove, hx''⟩
    · rw [hremove]
      exact .inl rfl
    · rw [hremove]
      exact .inr ⟨_, rfl, hf x'' hx''⟩

theorem Sound.map (h : Sound R x run) (f : α → γ) (hf : ∀ x', R x x' → S (f x) (f x')) :
    Sound S (f x) fun test => run test >>= fun r => pure (r.1, f r.2) :=
  h.transform (fun _ => f) hf

theorem Sound.otherwise (h : Sound R x run) (f g : α → γ) (hf : ∀ x', R x x' → S (f x) (f x'))
    (hg : S (f x) (g x)) : Sound S (f x) fun test => run test >>= fun r =>
      if r.1.isSome then pure (r.1, f r.2) else if test = .rewrite then pure (some .t,
        g r.2) else pure (some .t, f r.2) := by
  cases h with
  | fails h =>
    apply Sound.succeeds
    · rw [h]
      exact ⟨.t, rfl⟩
    · rw [h]
      exact ⟨.t, g x, rfl, hg⟩
    · rw [h]
      exact .inl rfl
  | succeeds ask rewrite remove =>
    obtain ⟨kind, hask⟩ := ask
    obtain ⟨kind', x', hrewrite, hx'⟩ := rewrite
    apply Sound.succeeds
    · rw [hask]
      exact ⟨kind, rfl⟩
    · rw [hrewrite]
      exact ⟨kind', _, rfl, hf x' hx'⟩
    rcases remove with hremove | ⟨x'', hremove, hx''⟩
    · rw [hremove]
      exact .inl rfl
    · rw [hremove]
      exact .inr ⟨_, rfl, hf x'' hx''⟩

theorem Sound.none : Sound R x fun _ => pure (none, x) := .fails fun _ => rfl

/-- What only a rewriting run changes. -/
theorem Sound.replace {x' : α} (h : R x x') :
    Sound R x fun test => if test = .rewrite then pure (some .t, x') else pure (some .t, x) :=
  .succeeds ⟨.t, rfl⟩ ⟨.t, x', rfl, h⟩ (.inl rfl)

end Sound

theorem negateArgs_sound {runX runY : Test → Except Failure (Outcome (Lvar ν β))}
    (hx : Sound (Lvar.TurnsTo false) x runX) (hy : Sound (Lvar.TurnsTo false) y runY)
    (may : Contagion) : Sound ArgsTurnTo (x, y) (negateArgs may x y runX runY) := by
  have hfirst : ∀ x', x.TurnsTo false x' → ArgsTurnTo (x, y) (x', y) := fun x' h => .inl ⟨h, rfl⟩
  have hsecond : ∀ y', y.TurnsTo false y' → ArgsTurnTo (x, y) (x, y') := fun y' h => .inr ⟨rfl, h⟩
  cases may with
  | neither => exact .none
  | first => exact hx.map (fun x => (x, y)) hfirst
  | second => exact hy.map (fun y => (x, y)) hsecond
  | both =>
    cases hx with
    | fails hx =>
      cases hy with
      | fails hy =>
        apply Sound.fails
        intro test
        cases test <;> simp only [negateArgs, hx, hy] <;> rfl
      | succeeds ask rewrite remove =>
        obtain ⟨kind, hask⟩ := ask
        obtain ⟨kind', y', hrewrite, hy'⟩ := rewrite
        apply Sound.succeeds
        · simp only [negateArgs, hx, hask]
          exact ⟨kind, rfl⟩
        · simp only [negateArgs, hx, hrewrite]
          exact ⟨kind', _, rfl, hsecond y' hy'⟩
        · rcases remove with hremove | ⟨y'', hremove, hy''⟩ <;> simp only [negateArgs, hx, hremove]
          · exact .inl rfl
          · exact .inr ⟨_, rfl, hsecond y'' hy''⟩
    | succeeds ask rewrite remove =>
      obtain ⟨kind, hask⟩ := ask
      obtain ⟨kind', x', hrewrite, hx'⟩ := rewrite
      have hboth : ∃ kind, negateArgs .both x y runX runY .ask = .ok (some kind, (x, y)) := by
        simp only [negateArgs, hask]
        exact ⟨kind, rfl⟩
      rcases remove with hremove | ⟨x'', hremove, hx''⟩
      · -- the first argument can be negated, but loses no `%negate`
        cases hy with
        | fails hy =>
          refine .succeeds hboth ?_ ?_ <;> simp only [negateArgs, hremove, hy]
          · rw [hrewrite]
            exact ⟨kind', _, rfl, hfirst x' hx'⟩
          · exact .inl rfl
        | succeeds _ rewrite removeY =>
          obtain ⟨kindY, y', hrewriteY, hy'⟩ := rewrite
          refine .succeeds hboth ?_ ?_
          · simp only [negateArgs, hremove, hrewriteY]
            exact ⟨kindY, _, rfl, hsecond y' hy'⟩
          · rcases removeY with hremoveY | ⟨y'', hremoveY, hy''⟩
              <;> simp only [negateArgs, hremove, hremoveY]
            · exact .inl rfl
            · exact .inr ⟨_, rfl, hsecond y'' hy''⟩
      · refine .succeeds hboth ?_ (.inr ?_) <;> simp only [negateArgs, hremove]
        · exact ⟨.negate, _, rfl, hfirst x'' hx''⟩
        · exact ⟨_, rfl, hfirst x'' hx''⟩

/-! ## The pass -/

theorem Odd.map (h : Odd op op) (anyBranch : Bool)
    {run : Test → Except Failure (Outcome (Lvar ν β × Lvar ν β))}
    (hrun : Sound ArgsTurnTo (x, y) run) :
    Sound (Node.TurnsTo anyBranch) (.combination (.binary op x y)) fun test => run test >>= fun r =>
      pure (r.1, .combination (.binary op r.2.1 r.2.2)) :=
  hrun.map (fun p => Node.combination (.binary op p.1 p.2)) fun _ hp => h.turnsTo anyBranch hp

theorem Odd.transform (h : Odd op op') (anyBranch : Bool)
    {run : Test → Except Failure (Outcome (Lvar ν β × Lvar ν β))}
    (hrun : Sound ArgsTurnTo (x, y) run) :
    Sound (Node.TurnsTo anyBranch) (.combination (.binary op x y)) fun test => run test >>= fun r =>
      pure (r.1, .combination (.binary (if transforms test r.1 then op' else op) r.2.1 r.2.2)) :=
  hrun.transform (fun b p => Node.combination (.binary (if b then op' else op) p.1 p.2)) fun _ hp =>
    h.turnsTo anyBranch hp

variable {floatSafe : Bool}

theorem negateBinary_sound
    (hx : ∀ anyBranch, Sound (Lvar.TurnsTo anyBranch) x fun test =>
      negateLvar floatSafe x test anyBranch)
    (hy : Sound (Lvar.TurnsTo false) y fun test => negateLvar floatSafe y test false)
      (op : BinaryOp) (anyBranch : Bool) :
    Sound (Node.TurnsTo anyBranch) (.combination (.binary op x y)) fun test =>
      negateCombination floatSafe (.binary op x y) test anyBranch := by
  have hargs : ∀ contagion avoidComplex, Sound ArgsTurnTo (x, y)
      (negateArgs (mayNegate floatSafe contagion avoidComplex x.type y.type) x y (fun test =>
        negateLvar floatSafe x test false)
        (fun test => negateLvar floatSafe y test false)) :=
    fun contagion avoidComplex => negateArgs_sound (hx false) hy _
  cases op with
  | sub =>
    simp only [negateCombination]
    split_ifs
    · exact .none
    · exact .replace (sub_turnsTo anyBranch x y)
  | add =>
    simp only [negateCombination]
    split_ifs
    · exact .none
    · exact .replace (add_turnsTo anyBranch x y)
  | mul =>
    simp only [negateCombination]
    exact odd_mul.map anyBranch (hargs true true)
  | div =>
    simp only [negateCombination]
    split_ifs
    · exact .none
    · exact odd_div.map anyBranch (hargs true false)
  | truncate =>
    simp only [negateCombination]
    exact odd_truncate.map anyBranch (hargs false false)
  | round =>
    simp only [negateCombination]
    exact odd_round.map anyBranch (hargs false false)
  | floor =>
    simp only [negateCombination]
    exact odd_floor.transform anyBranch (hargs false false)
  | ceiling =>
    simp only [negateCombination]
    exact odd_ceiling.transform anyBranch (hargs false false)
  | ash countUnsigned wordSizedResult =>
    cases countUnsigned with
    | true =>
      simp only [negateCombination, if_true]
      exact (hx anyBranch).map (fun x => Node.combination (.binary (.ash true wordSizedResult) x y))
        fun _ hx' =>
        ash_turnsTo hx' y
    | false =>
      simp only [negateCombination, Bool.false_eq_true, if_false]
      cases hconst : y.constant with
      | none => exact .none
      | some shift =>
        simp only
        split_ifs with hshift
        · exact (hx false).transform
            (fun b x => Node.combination
              (if b then .binary .ceiling x (constantArg (2 ^ (-shift.num).toNat))
              else .binary (.ash false wordSizedResult) x y))
            fun _ hx' => ash_turnsTo_ceiling anyBranch hconst hshift.1.2.2 hx'
        · exact .none

variable {rest : Uses ν β}

theorem cons_turnsTo {anyBranch : Bool} {use' : Node ν β} {rest' : Uses ν β} (nodeNext : Bool)
    (huse : use.TurnsTo anyBranch use') (hrest : rest.TurnsTo anyBranch rest') :
    (Uses.cons nodeNext use rest).TurnsTo anyBranch (.cons nodeNext use' rest') := by
  intro env i
  cases i with
  | zero => exact huse env
  | succ i => exact hrest env i

theorem negateAny_cons
    (huse : Sound (Node.TurnsTo true) use fun test => negateNode floatSafe use test true)
    (hrest : Sound (Uses.TurnsTo true) rest (negateAny floatSafe rest)) (nodeNext : Bool) :
    Sound (Uses.TurnsTo true) (.cons nodeNext use rest)
      (negateAny floatSafe (.cons nodeNext use rest)) := by
  have huseSelf : use.TurnsTo true use := fun env => turned_self _
  have hrestSelf : rest.TurnsTo true rest := fun env i => turned_self _
  cases huse with
  | fails huse =>
    cases hrest with
    | fails hrest =>
      apply Sound.fails
      intro test
      simp only [negateAny, huse, hrest]
      rfl
    | succeeds ask rewrite remove =>
      obtain ⟨kind, hask⟩ := ask
      obtain ⟨kind', rest', hrewrite, hrest'⟩ := rewrite
      apply Sound.succeeds <;> simp only [negateAny, huse]
      · rw [hask]
        cases kind <;> exact ⟨_, rfl⟩
      · rw [hrewrite]
        cases kind' <;> exact ⟨_, _, rfl, cons_turnsTo nodeNext huseSelf hrest'⟩
      · rcases remove with hremove | ⟨rest'', hremove, hrest''⟩ <;> rw [hremove]
        · exact .inl rfl
        · exact .inr ⟨_, rfl, cons_turnsTo nodeNext huseSelf hrest''⟩
  | succeeds ask rewrite remove =>
    obtain ⟨kind, hask⟩ := ask
    obtain ⟨kind', use', hrewrite, huse'⟩ := rewrite
    cases hrest with
    | fails hrest =>
      apply Sound.succeeds <;> simp only [negateAny, hrest]
      · rw [hask]
        cases kind <;> exact ⟨_, rfl⟩
      · rw [hrewrite]
        cases kind' <;> exact ⟨_, _, rfl, cons_turnsTo nodeNext huse' hrestSelf⟩
      · rcases remove with hremove | ⟨use'', hremove, huse''⟩ <;> rw [hremove]
        · exact .inl rfl
        · exact .inr ⟨_, rfl, cons_turnsTo nodeNext huse'' hrestSelf⟩
    | succeeds askRest rewriteRest removeRest =>
      obtain ⟨kindRest, haskRest⟩ := askRest
      obtain ⟨kindRest', rest', hrewriteRest, hrest'⟩ := rewriteRest
      apply Sound.succeeds <;> simp only [negateAny]
      · rw [hask, haskRest]
        cases kind <;> cases kindRest <;> exact ⟨_, rfl⟩
      · rw [hrewrite, hrewriteRest]
        cases kind' <;> cases kindRest' <;> exact ⟨_, _, rfl, cons_turnsTo nodeNext huse' hrest'⟩
      rcases remove with hremove | ⟨use'', hremove, huse''⟩ <;>
        rcases removeRest with hremoveRest | ⟨rest'', hremoveRest, hrest''⟩
        <;> rw [hremove, hremoveRest]
      · exact .inl rfl
      · exact .inr ⟨_, rfl, cons_turnsTo nodeNext huseSelf hrest''⟩
      · exact .inr ⟨_, rfl, cons_turnsTo nodeNext huse'' hrestSelf⟩
      · exact .inr ⟨_, rfl, cons_turnsTo nodeNext huse'' hrest''⟩

/-- The uses can all be negated where the test leaves none. -/
def UsesSound (floatSafe : Bool) (uses : Uses ν β) : Prop :=
  ∃ tested, testUses floatSafe uses = .ok tested ∧
    (tested.left = false → ∃ uses', negateUses floatSafe uses = .ok uses' ∧
      uses.TurnsTo false uses')

theorem usesSound_cons
    (huse : Sound (Node.TurnsTo false) use fun test => negateNode floatSafe use test false)
    (hrest : UsesSound floatSafe rest)
    (nodeNext : Bool) : UsesSound floatSafe (.cons nodeNext use rest) := by
  obtain ⟨tested, htested, hleft⟩ := hrest
  unfold UsesSound
  simp only [testUses, negateUses, htested]
  cases nodeNext with
  | true => exact ⟨_, rfl, by simp [Tested.add]⟩
  | false =>
    cases huse with
    | fails h =>
      rw [if_neg (by simp), h]
      exact ⟨_, rfl, by simp [Tested.add]⟩
    | succeeds ask rewrite _ =>
      obtain ⟨kind, hask⟩ := ask
      obtain ⟨kind', use', hrewrite, huse'⟩ := rewrite
      rw [if_neg (by simp), hask, hrewrite]
      refine ⟨_, rfl, fun h => ?_⟩
      obtain ⟨rest', hrest', hturns⟩ := hleft (by simpa [Tested.add] using h)
      rw [hrest']
      exact ⟨_, rfl, cons_turnsTo false huse' hturns⟩

theorem negateLvar_several {uses : Uses ν β} (h : UsesSound floatSafe uses)
    (type : LvarType) (branch : β) :
    Sound (Lvar.TurnsTo false) (.several type branch uses) fun test =>
      negateLvar floatSafe (.several type branch uses) test false := by
  obtain ⟨⟨left, negated, negate⟩, htested, hleft⟩ := h
  cases left with
  | true =>
    apply Sound.fails
    intro test
    simp only [negateLvar, htested]
    cases negated <;> rfl
  | false =>
    obtain ⟨uses', huses', hturns⟩ := hleft rfl
    have h : (Lvar.several type branch uses).TurnsTo false (.several type branch uses') :=
      fun env => hturns env _
    cases negated with
    | false =>
      apply Sound.fails
      intro test
      simp only [negateLvar, htested]
      rfl
    | true =>
      apply Sound.succeeds <;> simp only [negateLvar, htested, huses']
      · exact ⟨.t, rfl⟩
      · cases negate <;> exact ⟨_, _, rfl, h⟩
      · cases negate with
        | false => exact .inl rfl
        | true => exact .inr ⟨_, rfl, h⟩

mutual

theorem negateLvar_sound (floatSafe : Bool) : ∀ (x : Lvar ν β) (anyBranch : Bool),
    Sound (Lvar.TurnsTo anyBranch) x fun test => negateLvar floatSafe x test anyBranch
  | .single type use, anyBranch => by
    simp only [negateLvar]
    exact (negateNode_sound floatSafe use anyBranch).map (Lvar.single type) fun _ h => h
  | .several type branch uses, true => by
    simp only [negateLvar]
    exact (negateAny_sound floatSafe uses).map (Lvar.several type branch) fun _ h env => h env _
  | .several type branch uses, false => negateLvar_several (uses_sound floatSafe uses) type branch

theorem negateNode_sound (floatSafe : Bool) : ∀ (x : Node ν β) (anyBranch : Bool),
    Sound (Node.TurnsTo anyBranch) x fun test => negateNode floatSafe x test anyBranch
  | .constant value, anyBranch => by
    simp only [negateNode]
    split_ifs
    · exact .none
    · exact .replace fun env a ha => ⟨-value, rfl, Option.some.inj ha ▸ opposite_neg _ _⟩
  | .leaf name, _ => by
    simp only [negateNode]
    exact .none
  | .combination call, anyBranch => by
    simp only [negateNode]
    exact negateCombination_sound floatSafe call anyBranch
  | .cast check (.single type (.combination call)), anyBranch => by
    simp only [negateNode]
    split_ifs with hcheck
    · exact (negateCombination_sound floatSafe call anyBranch).map (fun use =>
        Node.cast check (.single type use)) fun _ h =>
        cast_turnsTo hcheck h
    · exact .none
  | .cast check (.single type (.constant value)), _ => by
    simp only [negateNode]
    exact .none
  | .cast check (.single type (.leaf name)), _ => by
    simp only [negateNode]
    exact .none
  | .cast check (.single type (.cast inner value)), _ => by
    simp only [negateNode]
    exact .none
  | .cast check (.several type branch uses), _ => by
    simp only [negateNode]
    exact .none

theorem negateCombination_sound (floatSafe : Bool) : ∀ (call : Combination ν β) (anyBranch : Bool),
    Sound (Node.TurnsTo anyBranch)
      (.combination call) fun test => negateCombination floatSafe call test anyBranch
  | .unary .negate x, anyBranch => by
    simp only [negateCombination]
    have h := negate_turnsTo anyBranch x
    exact .succeeds ⟨.negate, rfl⟩ ⟨.negate, _, rfl, h⟩ (.inr ⟨_, rfl, h⟩)
  | .unary .unaryTruncate x, anyBranch => by
    simp only [negateCombination]
    exact (negateLvar_sound floatSafe x anyBranch).otherwise (fun x =>
      Node.combination (.unary .unaryTruncate x))
      (fun x => Node.combination (.binary .truncate x (constantArg (-1)))) (fun _ h =>
        unary_turnsTo unaryTruncate_neg h)
      (minusOne_turnsTo anyBranch (fun _ => rfl) rfl truncateRational_neg x)
  | .unary .unaryRound x, anyBranch => by
    simp only [negateCombination]
    exact (negateLvar_sound floatSafe x anyBranch).otherwise (fun x =>
      Node.combination (.unary .unaryRound x))
      (fun x => Node.combination (.binary .round x (constantArg (-1)))) (fun _ h =>
        unary_turnsTo unaryRound_neg h)
      (minusOne_turnsTo anyBranch (fun _ => rfl) rfl roundRational_neg x)
  | .unary .identity x, _ => by
    simp only [negateCombination]
    exact .none
  | .binary op x y, anyBranch =>
    negateBinary_sound (negateLvar_sound floatSafe x)
      (negateLvar_sound floatSafe y false) op anyBranch

theorem negateAny_sound (floatSafe : Bool) : ∀ uses : Uses ν β,
    Sound (Uses.TurnsTo true) uses (negateAny floatSafe uses)
  | .nil => .fails fun _ => rfl
  | .cons nodeNext use rest => negateAny_cons (negateNode_sound floatSafe use true)
    (negateAny_sound floatSafe rest) nodeNext

theorem uses_sound (floatSafe : Bool) : ∀ uses : Uses ν β, UsesSound floatSafe uses
  | .nil => ⟨_, rfl, fun _ => ⟨.nil, rfl, fun _ _ _ h => nomatch h⟩⟩
  | .cons nodeNext use rest => usesSound_cons (negateNode_sound floatSafe use false)
    (uses_sound floatSafe rest) nodeNext

end

/-! ## Transforms -/

/-- What takes the place of a negation has its value, over the exact rational operations. -/
theorem negateTransform_eval :
    ∃ result, negateTransform floatSafe x = .ok result ∧
      ∀ x' ∈ result, ∀ env, ∀ c ∈ (Node.combination (.unary .negate x)).eval env,
        c ∈ x'.eval env := by
  cases negateLvar_sound floatSafe x false with
  | fails h =>
    refine ⟨none, ?_, nofun⟩
    simp only [negateTransform, h]
    rfl
  | succeeds _ rewrite _ =>
    obtain ⟨kind, x', hrewrite, hx'⟩ := rewrite
    refine ⟨some x', ?_, ?_⟩
    · simp only [negateTransform, hrewrite]
      rfl
    · rintro _ ⟨⟩ env c hc
      obtain ⟨a, ha, rfl⟩ := mem_eval_unary.1 hc
      exact Lvar.TurnsTo.mem hx' ha

/-- The operations whose value two negated arguments leave as it is. -/
def BinaryOp.IsPaired (op : BinaryOp) : Prop :=
  op ∈ [.mul, .div, .truncate, .round, .floor, .ceiling]

theorem BinaryOp.IsPaired.apply_neg (h : op.IsPaired) (hc : c ∈ op.apply a b) :
    c ∈ op.apply (-a) (-b) := by
  obtain ⟨op', h1, h2⟩ : ∃ op', Odd op op' ∧ Odd op' op := by
    simp only [BinaryOp.IsPaired, List.mem_cons, List.not_mem_nil, or_false] at h
    rcases h with rfl | rfl | rfl | rfl | rfl | rfl
    · exact ⟨_, odd_mul, odd_mul⟩
    · exact ⟨_, odd_div, odd_div⟩
    · exact ⟨_, odd_truncate, odd_truncate⟩
    · exact ⟨_, odd_round, odd_round⟩
    · exact ⟨_, odd_floor, odd_ceiling⟩
    · exact ⟨_, odd_ceiling, odd_floor⟩
  have hneg := h2.second (h1.first hc)
  rwa [neg_neg] at hneg

theorem removePairedNegate_spec (x y : Lvar ν β)
    (nodeMinusZeroIgnored minusZeroIgnored floatResult : Bool) :
    removePairedNegate x y nodeMinusZeroIgnored minusZeroIgnored floatResult = .ok (false, x, y) ∨
      ∃ x' y', removePairedNegate x y nodeMinusZeroIgnored minusZeroIgnored floatResult =
        .ok (true, x', y') ∧ x.TurnsTo false x' ∧ y.TurnsTo false y' := by
  unfold removePairedNegate
  split_ifs with hsafe
  · cases negateLvar_sound nodeMinusZeroIgnored x false with
    | fails hx =>
      rw [hx]
      exact .inl rfl
    | succeeds askX rewriteX _ =>
      obtain ⟨kindX, haskX⟩ := askX
      obtain ⟨kindX', x', hrewriteX, hx'⟩ := rewriteX
      cases negateLvar_sound nodeMinusZeroIgnored y false with
      | fails hy =>
        rw [haskX, hy]
        exact .inl rfl
      | succeeds askY rewriteY _ =>
        obtain ⟨kindY, haskY⟩ := askY
        obtain ⟨kindY', y', hrewriteY, hy'⟩ := rewriteY
        rw [haskX, haskY, hrewriteX, hrewriteY]
        by_cases hnegate : (some kindY).isSome ∧
          (some kindX = some .negate ∨ some kindY = some .negate)
        · exact .inr ⟨x', y', if_pos hnegate, hx', hy'⟩
        · exact .inl (if_neg hnegate)
  · exact .inl rfl

/-- For every tree: no `aver` fails, one run succeeds where another does, a run that fails or asks
leaves the tree as it was, and one that reports a rewriting leaves the negation of its value. Where
any branch may be negated it leaves the magnitude. A pair of removed negations leaves the value of
the call. -/
theorem negation_preserves_value (floatSafe : Bool) :
    (∀ (anyBranch : Bool) (x : Lvar ν β), ∃ outcome : Test → Outcome (Lvar ν β),
      (∀ test, negateLvar floatSafe x test anyBranch = .ok (outcome test)) ∧
        (∀ test test', (outcome test).1.isSome = (outcome test').1.isSome) ∧
        (∀ test, (outcome test).1 = none ∨ test = .ask ∨ test = .remove ∧
          (outcome test).1 = some .t → (outcome test).2 = x) ∧
        ∀ test, (outcome test).1.isSome → test = .rewrite ∨ test = .remove ∧
          (outcome test).1 = some .negate →
          ∀ env, ∀ a ∈ x.eval env, ∃ b ∈ (outcome test).2.eval env,
            if anyBranch then |b| = |a| else b = -a) ∧
    ∀ (x y : Lvar ν β) (minusZeroIgnored floatResult : Bool), ∃ success x' y',
      removePairedNegate x y floatSafe minusZeroIgnored floatResult = .ok (success, x', y') ∧
        (success = false → x' = x ∧ y' = y) ∧
        (success = true → ∀ op : BinaryOp, op.IsPaired → ∀ env, ∀ c ∈ (Node.combination (.binary op x y)).eval env,
          c ∈ (Node.combination (.binary op x' y')).eval env) := by
  constructor
  · intro anyBranch x
    cases negateLvar_sound floatSafe x anyBranch with
    | fails h =>
      refine ⟨fun _ => (none, x), h, fun _ _ => rfl, fun _ _ => rfl, nofun⟩
    | succeeds ask rewrite remove =>
      obtain ⟨kind, hask⟩ := ask
      obtain ⟨kind', x', hrewrite, hx'⟩ := rewrite
      obtain ⟨kind'', x'', hremove, hkept, hturns⟩ : ∃ kind x'',
        negateLvar floatSafe x .remove anyBranch = .ok (some kind, x'') ∧
          (kind = .t → x'' = x) ∧ (kind = .negate → x.TurnsTo anyBranch x'') := by
        rcases remove with hremove | ⟨x'', hremove, hx''⟩
        · exact ⟨.t, x, hremove, fun _ => rfl, nofun⟩
        · exact ⟨.negate, x'', hremove, nofun, fun _ => hx''⟩
      refine ⟨fun | .rewrite => (some kind', x') | .ask => (some kind, x) | .remove => (some kind'', x''), ?_, ?_, ?_, ?_⟩
      · intro test
        cases test with
        | rewrite => exact hrewrite
        | ask => exact hask
        | remove => exact hremove
      · intro test test'
        cases test <;> cases test' <;> rfl
      · intro test h
        cases test with
        | rewrite => simp at h
        | ask => rfl
        | remove => exact hkept (by simpa using h)
      · intro test _ h
        cases test with
        | rewrite => exact hx'
        | ask => simp at h
        | remove => exact hturns (by simpa using h)
  · intro x y minusZeroIgnored floatResult
    rcases removePairedNegate_spec x y floatSafe minusZeroIgnored floatResult with h | ⟨x',
      y', h, hx', hy'⟩
    · exact ⟨false, x, y, h, fun _ => ⟨rfl, rfl⟩, nofun⟩
    · refine ⟨true, x', y', h, nofun, fun _ op hop env c hc => ?_⟩
      obtain ⟨a, ha, b, hb, hc⟩ := mem_eval_binary.1 hc
      exact mem_eval_binary.2 ⟨-a, hx'.mem ha, -b, hy'.mem hb, hop.apply_neg hc⟩

/-- `(abs (if p (- a) b))` becomes `(abs (if p a b))`: where any branch may be negated the second
one is not. -/
theorem negateLvar_anyBranch_ne :
    ¬∀ (floatSafe anyBranch : Bool) (x x' : Lvar ℕ ℕ), negateLvar floatSafe x .remove anyBranch =
      .ok (some .negate, x') → ∀ env, ∀ a ∈ x.eval env, -a ∈ x'.eval env := by
  intro h
  let type : LvarType := ⟨false, false, true⟩
  let a : Lvar ℕ ℕ := .single type (.leaf 0)
  let uses (op : UnaryOp) : Uses ℕ ℕ :=
    .cons false (.combination (.unary op a)) (.cons false (.leaf 1) .nil)
  have h1 := h true true (.several type 0 (uses .negate)) (.several type 0 (uses .identity)) rfl
    ⟨fun _ => 1, fun _ => 1⟩ 1 rfl
  exact absurd (Option.some.inj h1) (by norm_num)

end Sbcl.Compiler.Negation
