import Mathlib.LinearAlgebra.Matrix.NonsingularInverse
import ShaderDialects.Proofs.Meaning.Exact

theorem List.filter_ofFn_ne {α : Type} [DecidableEq α] {n : ℕ} {f : Fin (n + 1) → α}
    (hf : f.Injective) (i : Fin (n + 1)) :
    (List.ofFn f).filter (· ≠ f i) = List.ofFn (f ∘ i.succAbove) := by
  induction n with
  | zero =>
      obtain rfl := Fin.fin_one_eq_zero i
      simp
  | succ n ih =>
      cases i using Fin.cases with
      | zero =>
          rw [List.ofFn_succ, List.filter_cons_of_neg (by simp), List.filter_eq_self.mpr]
          · rfl
          · simp [List.mem_ofFn, hf.eq_iff]
      | succ i =>
          have hne : f 0 ≠ f i.succ := hf.ne (Fin.succ_ne_zero i).symm
          have htail := ih (hf.comp (Fin.succ_injective _)) i
          rw [List.ofFn_succ, List.filter_cons_of_pos (by simpa using hne)]
          refine (congrArg (f 0 :: ·) htail).trans ?_
          rw [List.ofFn_succ]
          simp [Function.comp_def]

theorem List.forall₂_ofFn {α β : Type} {P : α → β → Prop} {n : ℕ} {f : Fin n → α} {g : Fin n → β}
    (h : ∀ i, P (f i) (g i)) : List.Forall₂ P (List.ofFn f) (List.ofFn g) := by
  rw [List.ofFn_eq_map, List.ofFn_eq_map, List.forall₂_map_left_iff, List.forall₂_map_right_iff,
    List.forall₂_same]
  exact fun i _ => h i

theorem List.ofFn_val (n : ℕ) : List.ofFn (fun i : Fin n => (i : ℕ)) = List.range n := by
  rw [List.ofFn_eq_map, List.map_coe_finRange_eq_range]

theorem List.alternatingSum_ofFn {R : Type} [CommRing R] {n : ℕ} (f : Fin n → R) :
    (List.ofFn f).alternatingSum = ∑ i : Fin n, (-1) ^ (i : ℕ) * f i := by
  induction n with
  | zero => simp
  | succ n ih =>
      rw [List.ofFn_succ, List.alternatingSum_cons, ih, Fin.sum_univ_succ, sub_eq_add_neg,
        ← Finset.sum_neg_distrib]
      simp [pow_succ]

namespace ShaderDialects

namespace Dialect.Stmt

variable {α : Type} {I : Interpretation α} {env : Env α} {x : Expr} {v : Val α}

theorem execAll_declare (hx : x.eval I env = some v) (name : String) (ty : Ty)
    (rest : List Stmt) :
    execAll I env (.declare name ty (some x) :: rest) =
      execAll I ((name, .variable (some v)) :: env) rest := by
  rw [execAll, exec, hx]
  rfl

theorem execAll_return (hx : x.eval I env = some v) (rest : List Stmt) :
    execAll I env (.return x :: rest) = some (.returned v) := by
  rw [execAll, exec, hx]
  rfl

end Dialect.Stmt

namespace Emulation

open Dialect (Env)
open Dialect.Expr (Yields yields_one yields_index)
open Dialect.Stmt (execAll execAll_declare execAll_return)

theorem eval_of_body {α : Type} {I : Interpretation α} {e : Emulation} {signature : Signature}
    {params : List (String × Leaf)} {result : Leaf} {body : List Dialect.Stmt} {args : List α} {b : α}
    (hb : e.build signature = .function params result body) (hl : params.length = args.length)
    (h : execAll I (Env.bindAll [] (params.map Prod.fst) (args.map .leaf)) body =
      some (.returned (.leaf b))) :
    (Decision.emulated e).eval I signature args = some b := by
  have hinvoke : Dialect.invoke I [] (params.map Prod.fst) body (args.map .leaf) =
      some (.leaf b) := by
    rw [Dialect.invoke, if_pos (by simpa using hl), h]
  rw [Decision.eval, hb]
  exact congrArg (Option.bind · Value.leaf?) hinvoke

theorem eval_of_returned {α : Type} {I : Interpretation α} {e : Emulation} {signature : Signature}
    {param : String} {body : List Dialect.Stmt} {a b : α}
    (hb : e.build signature = unaryFunction signature param body)
    (h : execAll I [(param, .variable (some (.leaf a)))] body = some (.returned (.leaf b))) :
    (Decision.emulated e).eval I signature [a] = some b :=
  eval_of_body hb rfl h

variable {R : Type} [CommRing R] {env : Env (Exact R)}

/-- Terms that are added and subtracted in turn yield the alternating sum of their values. -/
theorem yields_alternate {sum : Dialect.Expr} {x : R} {ts : List Dialect.Expr} {xs : List R}
    (hsum : Yields env sum x) (h : List.Forall₂ (Yields env) ts xs) (plus : Bool) :
    Yields env (alternate sum plus ts)
      (if plus then x + xs.alternatingSum else x - xs.alternatingSum) := by
  induction h generalizing sum x plus with
  | nil => simpa [alternate] using hsum
  | cons ht _ ih =>
      rw [alternate, List.alternatingSum_cons]
      cases plus with
      | false => simpa [sub_sub_eq_add_sub, sub_add] using ih (hsum.subtract ht) true
      | true => simpa [add_sub_assoc] using ih (hsum.add ht) false

def minorTerm (column : ℕ) (columns rows : List ℕ) (row : ℕ) : Dialect.Expr :=
  .binary .multiply (element column row) (minor columns (rows.filter (· ≠ row)))

theorem minor_cons_cons (column next row : ℕ) (columns rows : List ℕ) :
    minor (column :: next :: columns) (row :: rows) =
      alternate (minorTerm column (next :: columns) (row :: rows) row) false
        (rows.map (minorTerm column (next :: columns) (row :: rows))) := rfl

theorem minor_ofFn {n : ℕ} (columns rows : Fin (n + 2) → ℕ) :
    let term := minorTerm (columns 0) (List.ofFn fun j => columns j.succ) (List.ofFn rows)
    minor (List.ofFn columns) (List.ofFn rows) =
      alternate (term (rows 0)) false (List.ofFn fun i => term (rows i.succ)) := by
  intro term
  have hmap : (List.ofFn fun i => term (rows i.succ)) =
      (List.ofFn fun i : Fin (n + 1) => rows i.succ).map term := by
    rw [List.map_ofFn]
    rfl
  rw [hmap]
  simp only [term, List.ofFn_succ]
  exact minor_cons_cons _ _ _ _ _

section Minor

variable {h w : ℕ} {m : Matrix (Fin h) (Fin w) R}
  (hm : env.read "m" = some (.leaf (.matrix m)))
include hm

theorem yields_element (i : Fin h) (j : Fin w) : Yields env (element j i) (m i j) := by
  have hvar : (Dialect.Expr.var "m").eval (Exact.interpretation R) env =
      some (.leaf (.matrix m)) := by
    rw [Dialect.Expr.eval, hm]
  exact yields_index hvar i j

/-- The expansion is the determinant of the part of the matrix at its rows and columns. -/
theorem yields_minor {n : ℕ} (rows : Fin n → Fin h) (columns : Fin n → Fin w)
    (hrows : rows.Injective) :
    Yields env (minor (List.ofFn fun j => (columns j : ℕ)) (List.ofFn fun i => (rows i : ℕ)))
      (m.submatrix rows columns).det := by
  -- Induction on the number of columns; a single column is not expanded any more.
  induction n with
  | zero => simpa [minor] using yields_one
  | succ n ih =>
      cases n with
      | zero => simpa [minor] using yields_element hm (rows 0) (columns 0)
      | succ n =>
          let cofactor (i : Fin (n + 2)) : R :=
            (m.submatrix (rows ∘ i.succAbove) (columns ∘ Fin.succ)).det
          have hinj : Function.Injective fun i => (rows i : ℕ) := Fin.val_injective.comp hrows
          have hterm (i : Fin (n + 2)) :
              Yields env (minorTerm (columns 0) (List.ofFn fun j => (columns j.succ : ℕ))
                (List.ofFn fun i => (rows i : ℕ)) (rows i))
                (m (rows i) (columns 0) * cofactor i) := by
            rw [minorTerm, List.filter_ofFn_ne hinj]
            exact (yields_element hm _ _).multiply
              (ih _ _ (hrows.comp i.succAbove_right_injective))
          have hdet : (m.submatrix rows columns).det =
              (List.ofFn fun i => m (rows i) (columns 0) * cofactor i).alternatingSum := by
            rw [List.alternatingSum_ofFn, Matrix.det_succ_column_zero]
            simp [cofactor, mul_assoc]
          rw [minor_ofFn, hdet, List.ofFn_succ (f := fun i => m (rows i) (columns 0) * cofactor i),
            List.alternatingSum_cons]
          exact yields_alternate (hterm 0) (List.forall₂_ofFn fun i => hterm i.succ) false

end Minor

section Square

variable {n : ℕ} {m : Matrix (Fin n) (Fin n) R} (hm : env.read "m" = some (.leaf (.matrix m)))
include hm

theorem yields_determinantValue : Yields env (determinantValue n) m.det := by
  have h := yields_minor hm id id Function.injective_id
  rw [Matrix.submatrix_id_id] at h
  rwa [determinantValue, ← List.ofFn_val]

variable (hd : env.read "d" = some (.leaf (.scalar m.det))) (hu : IsUnit m.det)
include hd hu

theorem yields_inverseElement (column row : Fin n) :
    Yields env (inverseElement n column row) (m⁻¹ row column) := by
  obtain ⟨n, rfl⟩ : ∃ k, n = k + 1 := ⟨n - 1, by have := row.isLt; omega⟩
  have hminor := yields_minor hm column.succAbove row.succAbove column.succAbove_right_injective
  have hvar : Yields env (.var "d") m.det := by
    rw [Yields, Dialect.Expr.eval, hd]
  have hwithout (k : Fin (n + 1)) : (List.range (n + 1)).filter (· ≠ (k : ℕ)) =
      List.ofFn fun i => (k.succAbove i : ℕ) := by
    rw [← List.ofFn_val, List.filter_ofFn_ne Fin.val_injective]
    rfl
  have hinv : m⁻¹ row column = (-1) ^ (row + column : ℕ) *
      (m.submatrix column.succAbove row.succAbove).det * Ring.inverse m.det := by
    rw [Matrix.inv_def, Matrix.smul_apply, Matrix.adjugate_fin_succ_eq_det_submatrix, smul_eq_mul,
      mul_comm, Nat.add_comm]
  rw [hinv, inverseElement]
  refine Yields.divide ?_ hvar hu
  rw [hwithout, hwithout]
  split
  next hodd =>
    rw [(Nat.odd_iff.mpr hodd).neg_one_pow, neg_one_mul]
    exact hminor.negate
  next heven =>
    rw [(Nat.not_odd_iff_even.mp (mt Nat.odd_iff.mp heven)).neg_one_pow, one_mul]
    exact hminor

theorem yields_inverseElements :
    List.Forall₂ (Yields env) (inverseElements n)
      (List.ofFn fun j => List.ofFn fun i => m⁻¹ i j).flatten := by
  have hexprs : inverseElements n =
      (List.ofFn fun j : Fin n => List.ofFn fun i : Fin n => inverseElement n j i).flatten := by
    rw [inverseElements, ← List.ofFn_val, List.flatMap_def, List.map_ofFn]
    simp only [Function.comp_def, List.map_ofFn]
  rw [hexprs]
  exact List.rel_flatten (List.forall₂_ofFn fun j => List.forall₂_ofFn fun i =>
    yields_inverseElement hm hd hu j i)

end Square

/-- For any columns, and rows of which none is taken twice, the expansion is the determinant of the
part of the matrix that they make up; so the emulation of `determinant` computes determinants. -/
theorem eval_minor_eq_det (R : Type) [CommRing R] :
    (∀ (h w n : ℕ) (m : Matrix (Fin h) (Fin w) R) (columns : List (Fin w)) (rows : List (Fin h))
      (_ : columns.length = n) (_ : rows.length = n), rows.Nodup →
      ∀ env : Env (Exact R), env.read "m" = some (.leaf (.matrix m)) →
        (minor (columns.map Fin.val) (rows.map Fin.val)).eval (Exact.interpretation R) env =
          some (.leaf (.scalar (Matrix.det (.of fun i j : Fin n => m rows[i] columns[j]))))) ∧
      ∀ (size : Extent) (m : Matrix (Fin size.length) (Fin size.length) R) (signature : Signature),
        paramLeaf signature 0 = .matrix size size →
          (Decision.emulated .determinant).eval (Exact.interpretation R) signature [.matrix m] =
            some (.scalar m.det) := by
  constructor
  · intro h w n m columns rows hc hr hd env hm
    have hinj : Function.Injective fun i : Fin n => rows[i] := by
      intro i j hij
      exact Fin.ext ((hd.getElem_inj_iff).mp hij)
    have hcolumns : columns.map Fin.val = List.ofFn fun j : Fin n => (columns[j] : ℕ) := by
      subst hc
      exact (List.ofFn_getElem_eq_map columns Fin.val).symm
    have hrows : rows.map Fin.val = List.ofFn fun i : Fin n => (rows[i] : ℕ) := by
      subst hr
      exact (List.ofFn_getElem_eq_map rows Fin.val).symm
    rw [hcolumns, hrows]
    exact yields_minor hm (fun i => rows[i]) (fun j => columns[j]) hinj
  · intro size m signature hs
    apply eval_of_returned rfl
    rw [hs]
    exact execAll_return (yields_determinantValue (m := m) rfl) []

/-! A matrix without any symmetry. -/
namespace Skewed

def matrix (R : Type) [CommRing R] : Matrix (Fin 4) (Fin 4) R :=
  !![2, 1, 0, 1; 0, 3, 1, 0; 1, 0, 4, 2; 3, 1, 2, 5]

def bound : Env (Exact ℤ) := [("m", .variable (some (.leaf (.matrix (matrix ℤ)))))]

end Skewed

theorem eval_minor_skewed :
    ([2, 0, 3] : List (Fin 4)).Nodup ∧
      (minor [3, 0, 2] [2, 0, 3]).eval (Exact.interpretation ℤ) Skewed.bound =
        some (.leaf (.scalar (-22))) ∧
      (Decision.emulated .determinant).eval (Exact.interpretation ℤ)
          (.function [.matrix .four .four] .float) [.matrix (Skewed.matrix ℤ)] =
        some (.scalar 68) := by
  obtain ⟨hminor, hdet⟩ := eval_minor_eq_det ℤ
  have hrows : ([2, 0, 3] : List (Fin 4)).Nodup := by decide
  refine ⟨hrows, ?_, ?_⟩
  · have h := hminor 4 4 3 (Skewed.matrix ℤ) [3, 0, 2] [2, 0, 3] rfl rfl hrows Skewed.bound rfl
    rw [Matrix.det_fin_three] at h
    exact h
  · have h := hdet .four (Skewed.matrix ℤ) (.function [.matrix .four .four] .float) rfl
    have hval : (Skewed.matrix ℤ).det = 68 := by decide +kernel
    rw [← hval]
    exact h

/-- Over a field, the emulated inverse of a matrix is its inverse wherever it has one. -/
theorem eval_inverse_mul {K : Type} [CommRing K] (hK : IsField K) (size : Extent)
    (m : Matrix (Fin size.length) (Fin size.length) K) (hm : m.det ≠ 0) (signature : Signature)
    (hs : paramLeaf signature 0 = .matrix size size) :
    ∃ w : Matrix (Fin size.length) (Fin size.length) K,
      (Decision.emulated .inverse).eval (Exact.interpretation K) signature [.matrix m] =
        some (.matrix w) ∧ w * m = 1 ∧ m * w = 1 := by
  obtain ⟨x, hx⟩ := hK.mul_inv_cancel hm
  have hu : IsUnit m.det := .of_mul_eq_one x hx
  refine ⟨m⁻¹, ?_, m.nonsing_inv_mul hu, m.mul_nonsing_inv hu⟩
  apply eval_of_returned rfl
  rw [hs]
  refine (execAll_declare (yields_determinantValue (m := m) rfl) _ _ _).trans ?_
  apply execAll_return
  rw [← Exact.ofElements_columns m⁻¹]
  exact Dialect.Expr.eval_construct (yields_inverseElements (m := m) rfl rfl hu)

theorem eval_inverse_skewed :
    (Skewed.matrix ℚ).det ≠ 0 ∧ ∃ w : Matrix (Fin 4) (Fin 4) ℚ,
      (Decision.emulated .inverse).eval (Exact.interpretation ℚ)
          (.function [.matrix .four .four] (.matrix .four .four)) [.matrix (Skewed.matrix ℚ)] =
        some (.matrix w) ∧ w * Skewed.matrix ℚ = 1 ∧ Skewed.matrix ℚ * w = 1 := by
  have hdet : (Skewed.matrix ℚ).det ≠ 0 := by decide +kernel
  exact ⟨hdet, eval_inverse_mul (Field.toIsField ℚ) .four (Skewed.matrix ℚ) hdet _ rfl⟩

end Emulation

end ShaderDialects
