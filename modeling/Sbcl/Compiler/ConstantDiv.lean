import Sbcl.Integer
import Sbcl.Object

/-!
# Division of a word by a constant word (compiler/srctran.lisp)

* `Form`, `Body` : the forms that the transform generates, and what they evaluate to; a `truly-the`
  whose value is outside its type, and a `%multiply-high` of something else than words, evaluate to
  nothing;
* `chooseMultiplier` : the multiplier and the shift for a divisor and a precision of the dividend;
* `genUnsignedDivByConstantExpr` : the quotient of `x`;
* `truncateByConstant` : quotient and remainder, as the transform of `truncate` generates them where
  no caller compares the remainder with zero.
-/

namespace Sbcl.Compiler

def mostPositiveWord : ℤ := 2 ^ nWordBits - 1

/-- `word` as a type of integers. -/
def IsWord (n : ℤ) : Prop := 0 ≤ n ∧ n ≤ mostPositiveWord

instance (n : ℤ) : Decidable (IsWord n) := inferInstanceAs (Decidable (_ ∧ _))

def multiplyHigh (a b : ℤ) : ℤ := ash (a * b) (-nWordBits)

/-! ## Generated forms -/

/-- The variables of the generated forms. -/
inductive Var where
  | x | num | t1 | quot | rem
  deriving DecidableEq

inductive Form where
  | var (v : Var)
  | const (n : ℤ)
  | add (a b : Form)
  | sub (a b : Form)
  | mul (a b : Form)
  | ash (a b : Form)
  | logandc2 (a b : Form)
  | multiplyHigh (a b : Form)
  /-- `(truly-the (integer lo hi) a)`. -/
  | trulyThe (lo hi : ℤ) (a : Form)
  /-- `(let* ((v e)) body)`. -/
  | letStar (v : Var) (e body : Form)

/-- A form with two values. -/
inductive Body where
  | values (a b : Form)
  | letStar (v : Var) (e : Form) (body : Body)

abbrev Env := Var → Option ℤ

/-- Only `x` is bound. -/
def Env.ofX (x : ℤ) : Env := fun v => if v = .x then some x else none

def Env.bind (env : Env) (v : Var) (n : ℤ) : Env := Function.update env v (some n)

def Form.eval (env : Env) : Form → Option ℤ
  | .var v => env v
  | .const n => some n
  | .add a b => do return (← a.eval env) + (← b.eval env)
  | .sub a b => do return (← a.eval env) - (← b.eval env)
  | .mul a b => do return (← a.eval env) * (← b.eval env)
  | .ash a b => do return Sbcl.ash (← a.eval env) (← b.eval env)
  | .logandc2 a b => do return Sbcl.logandc2 (← a.eval env) (← b.eval env)
  | .multiplyHigh a b => do
      let m ← a.eval env
      let n ← b.eval env
      if IsWord m ∧ IsWord n then some (Compiler.multiplyHigh m n) else none
  | .trulyThe lo hi a => do
      let n ← a.eval env
      if lo ≤ n ∧ n ≤ hi then some n else none
  | .letStar v e body => do body.eval (env.bind v (← e.eval env))

def Body.eval (env : Env) : Body → Option (ℤ × ℤ)
  | .values a b => do return (← a.eval env, ← b.eval env)
  | .letStar v e body => do body.eval (env.bind v (← e.eval env))

section Eval

attribute [local simp] Form.eval Body.eval

variable {env : Env} {a b body : Form} {m n : ℤ}

theorem Form.eval_add (ha : a.eval env = some m) (hb : b.eval env = some n) :
    (a.add b).eval env = some (m + n) := by
  simp [ha, hb]

theorem Form.eval_sub (ha : a.eval env = some m) (hb : b.eval env = some n) :
    (a.sub b).eval env = some (m - n) := by
  simp [ha, hb]

theorem Form.eval_mul (ha : a.eval env = some m) (hb : b.eval env = some n) :
    (a.mul b).eval env = some (m * n) := by
  simp [ha, hb]

theorem Form.eval_ash (ha : a.eval env = some m) (hb : b.eval env = some n) :
    (a.ash b).eval env = some (Sbcl.ash m n) := by
  simp [ha, hb]

theorem Form.eval_logandc2 (ha : a.eval env = some m) (hb : b.eval env = some n) :
    (a.logandc2 b).eval env = some (Sbcl.logandc2 m n) := by
  simp [ha, hb]

theorem Form.eval_multiplyHigh (ha : a.eval env = some m) (hb : b.eval env = some n) (hm : IsWord m)
    (hn : IsWord n) : (a.multiplyHigh b).eval env = some (Compiler.multiplyHigh m n) := by
  simp [ha, hb, hm, hn]

theorem Form.eval_trulyThe {lo hi : ℤ} (ha : a.eval env = some n) (hlo : lo ≤ n) (hhi : n ≤ hi) :
    (Form.trulyThe lo hi a).eval env = some n := by
  simp [ha, hlo, hhi]

theorem Form.eval_letStar {v : Var} (ha : a.eval env = some n) :
    (Form.letStar v a body).eval env = body.eval (env.bind v n) := by
  simp [ha]

theorem Body.eval_letStar {v : Var} {body : Body} (ha : a.eval env = some n) :
    (Body.letStar v a body).eval env = body.eval (env.bind v n) := by
  simp [ha]

end Eval

/-- `ld`: the binary logarithm of `x`, rounded up. -/
def ld (x : ℤ) : ℕ := integerLength (x - 1)

/-- The loop of `choose-multiplier`, which halves both multipliers while they stay apart. -/
def chooseMultiplierLoop : ℕ → ℤ → ℤ → ℤ × ℕ
  | 0, _, mHigh => (mHigh, 0)
  | shift + 1, mLow, mHigh =>
    if ash mLow (-1) < ash mHigh (-1) then chooseMultiplierLoop shift (ash mLow (-1))
      (ash mHigh (-1))
    else (mHigh, shift + 1)

def chooseMultiplier (y precision : ℤ) : ℤ × ℕ :=
  let l := ld y
  let expt2nl : ℤ := 2 ^ (nWordBits + l)
  chooseMultiplierLoop l (truncate expt2nl y) (truncate (expt2nl + ash expt2nl (-precision)) y)

/-- `word` of `gen-unsigned-div-by-constant-expr`. -/
def Form.word (a : Form) : Form := .trulyThe 0 mostPositiveWord a

/-- The three shapes of the quotient, from the multiplier `m` and the shifts before and after the
product. -/
def unsignedDivForm (y maxX m : ℤ) (shift1 shift2 : ℕ) : Form :=
  let n : ℤ := 2 ^ nWordBits
  if n ≤ m then
    .letStar .num (.var .x) <| .letStar .t1 (.multiplyHigh (.var .num) (.const (m - n))) <|
      .ash (.word (.add (.var .t1) (.ash (.word (.sub (.var .num) (.var .t1))) (.const (-1)))))
        (.const (1 - shift2))
  else if shift1 = 0 ∧ shift2 = 0 then
    .trulyThe 0 (truncate maxX y) (.multiplyHigh (.var .x) (.const m))
  else
    .ash (.multiplyHigh (.logandc2 (.var .x) (.const (ash 1 shift1 - 1))) (.const m))
      (.const (-(shift1 + shift2)))

/-- The declared types of the arguments and the `aver` are checked first. -/
def genUnsignedDivByConstantExpr (y maxX : ℤ) : Option Form :=
  if 3 ≤ y ∧ y ≤ mostPositiveWord ∧ IsWord maxX ∧ logand y (y - 1) ≠ 0 then
    let n : ℤ := 2 ^ nWordBits
    let precision : ℤ := integerLength maxX
    let (m, shift2) := chooseMultiplier y precision
    if n ≤ m ∧ y % 2 = 0 then
      let shift1 := ld (logand y (-y))
      let (m, shift2) := chooseMultiplier (y / ash 1 shift1) (precision - shift1)
      some (unsignedDivForm y maxX m shift1 shift2)
    else some (unsignedDivForm y maxX m 0 shift2)
  else none

/-- `max-x` of the transform, from the upper bound of the type of `x`. -/
def maxX (high : Option ℤ) : ℤ := high.getD mostPositiveWord

/-- The transform gives up on zero, one and the powers of two. -/
def truncateByConstant (y : ℤ) (high : Option ℤ) : Option Body :=
  if logand y (y - 1) = 0 then none
  else do
    let e ← genUnsignedDivByConstantExpr y (maxX high)
    return .letStar .quot (.trulyThe 0 (truncate (maxX high) y) e)
      (.letStar .rem (.trulyThe 0 (y - 1) (.sub (.var .x) (.mul (.var .quot) (.const y))))
        (.values (.var .quot) (.var .rem)))

end Sbcl.Compiler
