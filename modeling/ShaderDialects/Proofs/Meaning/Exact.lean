import Mathlib.Data.Matrix.Basic
import Mathlib.Algebra.BigOperators.Fin
import ShaderDialects.Proofs.Meaning.Evaluation
import ShaderDialects.Proofs.Reading.Rounding

namespace ShaderDialects

theorem Leaf.ofName?_name (t : Leaf) : ofName? t.name = some t := by
  rcases t with k | ⟨k, n⟩ | ⟨c, r⟩ | k
  · cases k <;> rfl
  · cases k <;> cases n <;> rfl
  · cases c <;> cases r <;> rfl
  · cases k <;> rfl

def Single.integer? (x : Single) : Option ℤ :=
  if x.isFinite ∧ x.value.den = 1 then
    some (if x.bits < 0x80000000 then x.value.num else -x.value.num)
  else none

def Literal.integer? : Literal → Option ℤ
  | bool _ => none
  | int v => some v.toInt
  | uint v => some v.toNat
  | float x => x.integer?

/-- A leaf value over a ring. -/
inductive Exact (R : Type) where
  | scalar (x : R)
  | vector {n : ℕ} (v : Fin n → R)
  | matrix {r c : ℕ} (m : Matrix (Fin r) (Fin c) R)
  | undefined

namespace Exact

variable {R : Type}

def index : Exact R → ℕ → Exact R
  | @matrix _ _ c m, j => if h : j < c then vector (m.col ⟨j, h⟩) else undefined
  | @vector _ n v, i => if h : i < n then scalar (v ⟨i, h⟩) else undefined
  | _, _ => undefined

def scalar? : Exact R → Option R
  | scalar x => some x
  | _ => none

theorem mapM_scalar? (xs : List R) : (xs.map scalar).mapM scalar? = some xs := by
  induction xs with
  | nil => rfl
  | cons x xs ih =>
      rw [List.map_cons, Option.mapM_cons, ih]
      rfl

variable [CommRing R]

/-- The matrix of these elements, column after column. -/
def ofElements (columns rows : ℕ) (xs : List R) : Exact R :=
  if xs.length = columns * rows then
    matrix (.of fun (i : Fin rows) (j : Fin columns) => xs.getD (j * rows + i) 0)
  else undefined

theorem ofElements_columns {columns rows : ℕ} (m : Matrix (Fin rows) (Fin columns) R) :
    ofElements columns rows (List.ofFn fun j => List.ofFn fun i => m i j).flatten = matrix m := by
  let place : Fin columns × Fin rows ≃ Fin (columns * rows) := finProdFinEquiv
  have hval (j : Fin columns) (i : Fin rows) : (place (j, i) : ℕ) = j * rows + i := by
    simp [place, Nat.add_comm, Nat.mul_comm]
  have hplace (j : Fin columns) (i : Fin rows) (h : j * rows + i < columns * rows) :
      place.symm ⟨j * rows + i, h⟩ = (j, i) := by
    rw [Equiv.symm_apply_eq]
    exact Fin.ext (hval j i).symm
  have hlist : (List.ofFn fun j => List.ofFn fun i => m i j).flatten =
      List.ofFn fun k => m (place.symm k).2 (place.symm k).1 := by
    simp only [List.ofFn_mul, hplace]
  rw [hlist, ofElements, if_pos List.length_ofFn]
  congr 1
  ext i j
  have hlt : j * rows + i < columns * rows := hval j i ▸ (place (j, i)).isLt
  simp [hlt, hplace]

open Classical in
/-- An operator on two scalars; only units divide. -/
noncomputable def binary (x y : R) : Dialect.BinaryOp → Exact R
  | .add => scalar (x + y)
  | .subtract => scalar (x - y)
  | .multiply => scalar (x * y)
  | .divide => if IsUnit y then scalar (x * Ring.inverse y) else undefined
  | _ => undefined

noncomputable def apply (xs : List R) : Form → Exact R
  | .binary op =>
      match xs with
      | [x, y] => binary x y op
      | _ => undefined
  | .unary .negate =>
      match xs with
      | [x] => scalar (-x)
      | _ => undefined
  | .call name =>
      match Leaf.ofName? name with
      | some (.matrix columns rows) => ofElements columns.length rows.length xs
      | _ => undefined
  | _ => undefined

variable (R) in
noncomputable def interpretation : Interpretation (Exact R) where
  literal v := v.integer?.elim undefined fun z => scalar z
  truth _ := false
  swizzle _ _ := undefined
  index := index
  native form args := (args.mapM scalar?).elim undefined fun xs => apply xs form

theorem applyNative_scalars (form : Form) (xs : List R) :
    Dialect.applyNative (interpretation R) form ((xs.map scalar).map .leaf) =
      some (.leaf (apply xs form)) := by
  rw [Dialect.applyNative, Value.leaves?_map_leaf, Option.map_some]
  simp only [interpretation, mapM_scalar?, Option.elim_some]

end Exact

theorem Single.integer?_one : Single.integer? ⟨0x3F800000⟩ = some 1 := by
  have hs : Single.significand ⟨0x3F800000⟩ = 0x800000 := by decide
  have he : Single.exponent ⟨0x3F800000⟩ = -23 := by decide
  have hv : Single.value ⟨0x3F800000⟩ = 1 := by
    rw [Single.value, hs, he]
    norm_num
  rw [Single.integer?, hv]
  decide

namespace Dialect.Expr

open Exact (interpretation)

variable {R : Type} [CommRing R] {env : Env (Exact R)} {x y : R} {l r e : Expr}

def Yields (env : Env (Exact R)) (e : Expr) (x : R) : Prop :=
  e.eval (interpretation R) env = some (.leaf (.scalar x))

theorem yields_one : Yields env Emulation.one 1 := by
  rw [Yields, Emulation.one, eval]
  simp [interpretation, Literal.integer?, Single.integer?_one]

namespace Yields

theorem eval_binary (hl : Yields env l x) (hr : Yields env r y) (op : BinaryOp) :
    (binary op l r).eval (interpretation R) env = some (.leaf (Exact.binary x y op)) := by
  rw [eval, hl, Option.bind_some, hr, Option.bind_some]
  exact Exact.applyNative_scalars (.binary op) [x, y]

theorem add (hl : Yields env l x) (hr : Yields env r y) : Yields env (binary .add l r) (x + y) :=
  hl.eval_binary hr .add

theorem subtract (hl : Yields env l x) (hr : Yields env r y) :
    Yields env (binary .subtract l r) (x - y) :=
  hl.eval_binary hr .subtract

theorem multiply (hl : Yields env l x) (hr : Yields env r y) :
    Yields env (binary .multiply l r) (x * y) :=
  hl.eval_binary hr .multiply

theorem divide (hl : Yields env l x) (hr : Yields env r y) (hy : IsUnit y) :
    Yields env (binary .divide l r) (x * Ring.inverse y) := by
  rw [Yields, hl.eval_binary hr, Exact.binary, if_pos hy]

theorem negate (he : Yields env e x) : Yields env (unary .negate e) (-x) := by
  rw [Yields, eval, he, Option.bind_some]
  exact Exact.applyNative_scalars (.unary .negate) [x]

end Yields

theorem yields_index {n k : ℕ} {m : Matrix (Fin n) (Fin k) R}
    (he : e.eval (interpretation R) env = some (.leaf (.matrix m))) (i : Fin n) (j : Fin k) :
    Yields env (index (index e j) i) (m i j) := by
  rw [Yields, eval, eval, he]
  simp [interpretation, Exact.index, Value.leaf?]

theorem eval_construct {columns rows : Extent} {args : List Expr} {xs : List R}
    (h : List.Forall₂ (Yields env) args xs) :
    (native (Leaf.matrix columns rows).name args).eval (interpretation R) env =
      some (.leaf (Exact.ofElements columns.length rows.length xs)) := by
  have hargs : evalAll (interpretation R) env args = some ((xs.map Exact.scalar).map .leaf) := by
    induction h with
    | nil => rfl
    | cons he _ ih =>
        rw [evalAll, he, ih]
        rfl
  rw [native, eval, hargs, Option.bind_some, Exact.applyNative_scalars, Exact.apply,
    Leaf.ofName?_name]

end Dialect.Expr

end ShaderDialects
