import Mathlib.Data.Rat.Floor
import Mathlib.Data.Sign.Basic
import ShaderDialects.Proofs.Builtin.Determinant

namespace ShaderDialects

/-! Signed arithmetic in 32 bits. Sums, differences and products wrap. A quotient is rounded toward
zero, and the one that is too great wraps too; there is none by zero. -/
namespace Wrapping

def binary (x y : Int32) : Dialect.BinaryOp → Option Int32
  | .add => some (x + y)
  | .subtract => some (x - y)
  | .multiply => some (x * y)
  | .divide => if y = 0 then none else some (x / y)
  | _ => none

def apply : Form → List Int32 → Option Int32
  | .binary op, [x, y] => binary x y op
  | .unary .negate, [x] => some (-x)
  | _, _ => none

def literal : Literal → Option Int32
  | .int n => some n
  | _ => none

def interpretation : Interpretation (Option Int32) where
  literal := literal
  truth _ := false
  swizzle _ _ := none
  index _ _ := none
  native form args := (args.mapM id).bind (apply form)

/-- What is taken away from a number in whole multiples of another leaves the remainder, also when
the quotient or the product wraps. -/
theorem toInt_sub_mul_div (x y : Int32) : (x - y * (x / y)).toInt = x.toInt.tmod y.toInt := by
  have hexact : (x - y * (x / y)).toInt =
      (x.toInt - y.toInt * x.toInt.tdiv y.toInt).bmod (2 ^ 32) := by
    simp only [Int32.toInt_sub, Int32.toInt_mul, Int32.toInt_div, Int.mul_bmod_bmod,
      Int.sub_bmod_bmod]
  rw [hexact, ← Int.tmod_def, ← Int32.toInt_mod]
  exact Int32.toInt_bmod (x % y)

end Wrapping

def Single.rational? (x : Single) : Option ℚ :=
  if x.isFinite then some (if x.isNegative then -x.value else x.value) else none

def Literal.rational? : Literal → Option ℚ
  | bool _ => none
  | int n => some n.toInt
  | uint n => some n.toNat
  | float x => x.rational?

namespace Exact

def function? : String → Option (ℚ → ℚ)
  | "floor" => some fun x => ⌊x⌋
  | "abs" => some fun x => |x|
  | "sign" => some fun x => SignType.sign x
  | _ => none

noncomputable def rational : Interpretation (Exact ℚ) where
  __ := interpretation ℚ
  literal v := v.rational?.elim undefined scalar
  native form args :=
    match form, args with
    | .call name, [scalar x] => (function? name).elim undefined fun f => scalar (f x)
    | form, args => (interpretation ℚ).native form args

end Exact

theorem Single.rational?_half : Single.rational? ⟨0x3F000000⟩ = some (1 / 2) := by
  have hs : Single.significand ⟨0x3F000000⟩ = 0x800000 := by decide
  have he : Single.exponent ⟨0x3F000000⟩ = -24 := by decide
  have hv : Single.value ⟨0x3F000000⟩ = 1 / 2 := by
    rw [Single.value, hs, he]
    norm_num
  have hfin : Single.isFinite ⟨0x3F000000⟩ = true := by decide
  have hpos : Single.isNegative ⟨0x3F000000⟩ = false := by decide
  simp [Single.rational?, hv, hfin, hpos]

namespace Dialect.Expr

variable {α : Type} {I : Interpretation α} {env : Env α} {l r e : Expr} {a b : α}

theorem eval_var_self (n : String) (v : Val α) (env : Env α) :
    (var n).eval I ((n, .variable (some v)) :: env) = some v := by
  rw [eval, Env.read_cons_self]

theorem eval_binary (hl : l.eval I env = some (.leaf a)) (hr : r.eval I env = some (.leaf b))
    (op : BinaryOp) : (binary op l r).eval I env = some (.leaf (I.native (.binary op) [a, b])) := by
  rw [eval, hl, Option.bind_some, hr]
  rfl

theorem eval_native (he : e.eval I env = some (.leaf a)) (name : String) :
    (native name [e]).eval I env = some (.leaf (I.native (.call name) [a])) := by
  rw [native, eval, evalAll, he]
  rfl

end Dialect.Expr

/-- The whole part of a number is that of its absolute value, with its sign: the number rounded
down or up, whichever is toward zero. -/
theorem sign_mul_floor_abs (x : ℚ) :
    (SignType.sign x * ⌊|x|⌋ : ℚ) = ((if 0 ≤ x then ⌊x⌋ else ⌈x⌉ : ℤ) : ℚ) := by
  rcases lt_trichotomy x 0 with hneg | rfl | hpos
  · rw [sign_neg hneg, abs_of_neg hneg, Int.floor_neg, if_neg hneg.not_ge]
    simp
  · simp
  · rw [sign_pos hpos, abs_of_pos hpos, if_pos hpos.le]
    simp

theorem floor_add_half_unique (x : ℚ) (m : ℤ) :
    ((m : ℚ) - 1 / 2 ≤ x ∧ x < m + 1 / 2) ↔ m = ⌊x + 1 / 2⌋ := by
  rw [eq_comm, Int.floor_eq_iff]
  constructor <;> rintro ⟨hlow, hhigh⟩ <;> constructor <;> linarith

namespace Emulation

open Dialect (Env)
open Dialect.Expr (eval_var_self eval_binary eval_native)
open Dialect.Stmt (execAll_return)

theorem eval_remainder (signature : Signature) (a : Int32) {b : Int32} (hb : b ≠ 0) :
    (Decision.emulated .remainder).eval Wrapping.interpretation signature [some a, some b] =
      some (some (a - b * (a / b))) := by
  refine eval_of_body rfl rfl (execAll_return ?_ [])
  set env : Env (Option Int32) := Env.bindAll [] _ _
  have ha : (Dialect.Expr.var "a").eval Wrapping.interpretation env = some (.leaf (some a)) := rfl
  have hb' : (Dialect.Expr.var "b").eval Wrapping.interpretation env = some (.leaf (some b)) := rfl
  have hquotient : Wrapping.interpretation.native (.binary .divide) [some a, some b] =
      some (a / b) := if_neg hb
  exact eval_binary ha (eval_binary hb' (hquotient ▸ eval_binary ha hb' .divide) .multiply) .subtract

theorem eval_round (signature : Signature) (x : ℚ) :
    (Decision.emulated .round).eval Exact.rational signature [.scalar x] =
      some (.scalar (⌊x + 1 / 2⌋ : ℤ)) := by
  refine eval_of_returned rfl (execAll_return ?_ [])
  have hhalf : Exact.rational.literal (.float ⟨0x3F000000⟩) = .scalar (1 / 2) := by
    simp [Exact.rational, Literal.rational?, Single.rational?_half]
  have hliteral (env : Env (Exact ℚ)) :
      zeroPointFive.eval Exact.rational env = some (.leaf (.scalar (1 / 2))) := by
    rw [zeroPointFive, Dialect.Expr.eval, hhalf]
  exact eval_native (eval_binary (eval_var_self "x" _ []) (hliteral _) .add) "floor"

theorem eval_truncate (signature : Signature) (x : ℚ) :
    (Decision.emulated .truncate).eval Exact.rational signature [.scalar x] =
      some (.scalar (SignType.sign x * ⌊|x|⌋)) := by
  refine eval_of_returned rfl (execAll_return ?_ [])
  have hx := eval_var_self (I := Exact.rational) "x" (.leaf (.scalar x)) []
  exact eval_binary (eval_native hx "sign") (eval_native (eval_native hx "abs") "floor") .multiply

/-- The emulations of scalar arithmetic compute what they stand for. In 32 bits, what `rem` gives is
the remainder of the division that rounds toward zero, whatever wraps on the way. On exact numbers
`trunc` rounds toward zero, and `round` gives the one integer that the argument is at most a half
below and less than a half above. -/
theorem eval_scalar_exact (signature : Signature) :
    (∀ a b : Int32, b ≠ 0 →
      ∃ r : Int32, (Decision.emulated .remainder).eval Wrapping.interpretation signature
          [some a, some b] = some (some r) ∧ r.toInt = a.toInt.tmod b.toInt) ∧
    (∀ x : ℚ, (Decision.emulated .truncate).eval Exact.rational signature [.scalar x] =
      some (.scalar ((if 0 ≤ x then ⌊x⌋ else ⌈x⌉ : ℤ) : ℚ))) ∧
    ∀ x : ℚ, ∃ n : ℤ, (Decision.emulated .round).eval Exact.rational signature [.scalar x] =
        some (.scalar (n : ℚ)) ∧
      ∀ m : ℤ, ((m : ℚ) - 1 / 2 ≤ x ∧ x < m + 1 / 2) ↔ m = n := by
  refine ⟨fun a b hb => ?_, fun x => ?_, fun x => ?_⟩
  · exact ⟨_, eval_remainder signature a hb, Wrapping.toInt_sub_mul_div a b⟩
  · rw [eval_truncate, sign_mul_floor_abs]
  · exact ⟨_, eval_round signature x, floor_add_half_unique x⟩

/-- The quotient of the least integer by minus one wraps, and nothing remains of it. A negative
number is rounded up to a whole one, and a half is rounded up on both sides of zero. -/
theorem eval_scalar_exact_signed :
    (Decision.emulated .remainder).eval Wrapping.interpretation (.function [.int, .int] .int)
        [some Int32.minValue, some (-1)] = some (some 0) ∧
      (Decision.emulated .truncate).eval Exact.rational (.function [.float] .float)
        [.scalar (-7 / 2)] = some (.scalar (-3)) ∧
      (Decision.emulated .round).eval Exact.rational (.function [.float] .float)
        [.scalar (-5 / 2)] = some (.scalar (-2)) ∧
      (Decision.emulated .round).eval Exact.rational (.function [.float] .float)
        [.scalar (5 / 2)] = some (.scalar 3) := by
  obtain ⟨-, htruncate, hround⟩ := eval_scalar_exact (.function [.float] .float)
  refine ⟨?_, ?_, ?_, ?_⟩
  · obtain ⟨r, hr, hvalue⟩ :=
      (eval_scalar_exact (.function [.int, .int] .int)).1 Int32.minValue (-1) (by decide)
    rw [hr, Int32.toInt_inj.1 (hvalue.trans (by decide) : r.toInt = (0 : Int32).toInt)]
  · rw [htruncate]
    norm_num
  · obtain ⟨n, hn, hunique⟩ := hround (-5 / 2)
    rw [hn, ← (hunique (-2)).1 (by norm_num)]
    norm_num
  · obtain ⟨n, hn, hunique⟩ := hround (5 / 2)
    rw [hn, ← (hunique 3).1 (by norm_num)]
    norm_num

end Emulation

end ShaderDialects
