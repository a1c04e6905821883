import ShaderDialects.Proofs.Legality.Lowered

namespace ShaderDialects

open Legality (leafRule)

/-- The native forms that emulations are made of, constructors apart. -/
def Emulation.basis : List Form :=
  ["floor", "sign", "abs", "exp", "clamp", "notEqual"].map .call
    ++ [.add, .subtract, .multiply, .divide, .notEqual].map .binary ++ [.unary .negate]

def Emulation.Body.kind : Body → Dialect.DeclKind
  | function params result body =>
      .function (params.map fun (n, leaf) => ⟨n, .leaf leaf⟩) (.leaf result) body
  | constant leaf value => .constant (.leaf leaf) value

namespace Table

def constructorVersions (t : Leaf) : VersionSet :=
  if t.isUnsigned then Standard.modern
  else if t.isNonSquare then .since .v300 .v120
  else .universal

theorem contains_constructorVersions {t : Leaf} {v : Version} (h : leafRule t v = none) :
    (constructorVersions t).contains v = true := by
  obtain ⟨hu, hn⟩ := Legality.leafRule_eq_none.mp h
  rw [constructorVersions]
  split
  next h => simpa [Standard.modern, VersionSet.since] using hu h
  next =>
    split
    next h => simpa [VersionSet.since] using hn h
    next => exact VersionSet.contains_universal v

theorem standard_has_basis :
    ∀ form ∈ Emulation.basis, ∃ e ∈ standard.definitions, ∃ r ∈ e.rules,
      r.versions = .universal ∧ r.stages = .both ∧ r.decision = .native form := by
  decide +kernel

theorem standard_has_constructors :
    ∀ t ∈ Leaf.all, t.isSampler = false → ∃ e ∈ standard.definitions, ∃ r ∈ e.rules,
      r.versions = constructorVersions t ∧ r.stages = .both ∧
        r.decision = .native (.call t.name) := by
  decide +kernel

end Table

namespace Legality

open Emulation
open Dialect (Stmt)

variable {table : Table} {stage : Stage} {v : Version}

theorem available_of_rule {form : Form} {vs : VersionSet} (hv : vs.contains v = true)
    (h : ∃ e ∈ table.definitions, ∃ r ∈ e.rules,
      r.versions = vs ∧ r.stages = .both ∧ r.decision = .native form) :
    Available table stage v form := by
  obtain ⟨e, he, r, hr, rfl, hs, hd⟩ := h
  refine Table.nativeAvailability_contains_iff.mpr ⟨e, he, r, hr, hd, ?_⟩
  cases stage <;> simp [Rule.covers, hs, hv, StageSet.both, StageSet.contains]

theorem basis_available {form : Form} (h : form ∈ basis) : Available .standard stage v form :=
  available_of_rule (VersionSet.contains_universal v) (Table.standard_has_basis form h)

theorem constructor_available {t : Leaf} (hs : t.isSampler = false) (ht : leafRule t v = none) :
    Available .standard stage v (.call t.name) :=
  available_of_rule (Table.contains_constructorVersions ht)
    (Table.standard_has_constructors t t.mem_all hs)

@[simp]
theorem leafRule_floatLiteral (x : Single) : leafRule (Literal.float x).leaf v = none := rfl

section Values

variable (hb : ∀ form ∈ basis, Available table stage v form)
include hb

theorem legalExpr_alternate {sum : Dialect.Expr} {ts : List Dialect.Expr}
    (hs : LegalExpr table stage v sum) (ht : ∀ t ∈ ts, LegalExpr table stage v t) (plus : Bool) :
    LegalExpr table stage v (alternate sum plus ts) := by
  induction ts generalizing sum plus with
  | nil => exact hs
  | cons t ts ih =>
      have hop : Available table stage v (.binary (if plus then .add else .subtract)) := by
        cases plus <;> exact hb _ (by decide)
      exact ih (legalExpr_binary.mpr ⟨hop, hs, ht t (by simp)⟩) (fun t h => ht t (by simp [h])) _

omit hb in
theorem legalExpr_element (column row : Nat) : LegalExpr table stage v (element column row) := by
  simp [element]

omit hb in
theorem legalExpr_float (x : Single) : LegalExpr table stage v (.literal (.float x)) := by
  simp

theorem legalExpr_minor (columns rows : List Nat) :
    LegalExpr table stage v (minor columns rows) := by
  induction columns generalizing rows with
  | nil => exact legalExpr_float _
  | cons column columns ih =>
      cases rows with
      | nil =>
          rw [minor]
          · exact legalExpr_float _
          · exact nofun
      | cons row rows =>
          cases columns with
          | nil => exact legalExpr_element _ _
          | cons next columns =>
              have hterm (r : Nat) (rest : List Nat) : LegalExpr table stage v
                  (.binary .multiply (element column r) (minor (next :: columns) rest)) :=
                legalExpr_binary.mpr ⟨hb _ (by decide), legalExpr_element _ _, ih _⟩
              rw [minor, List.map_cons]
              · refine legalExpr_alternate hb (hterm _ _) (fun t ht => ?_) _
                obtain ⟨r, _, rfl⟩ := List.mem_map.mp ht
                exact hterm _ _
              · exact nofun
              · exact nofun

theorem legalExpr_inverseElements (n : Nat) :
    ∀ x ∈ inverseElements n, LegalExpr table stage v x := by
  intro x hx
  obtain ⟨column, _, hx⟩ := List.mem_flatMap.mp hx
  obtain ⟨row, _, rfl⟩ := List.mem_map.mp hx
  refine legalExpr_binary.mpr ⟨hb _ (by decide), ?_, legalExpr_var _⟩
  split
  · exact legalExpr_unary.mpr ⟨hb _ (by decide), legalExpr_minor hb _ _⟩
  · exact legalExpr_minor hb _ _

omit hb in
theorem legalExpr_transposeElements (columns rows : Nat) :
    ∀ x ∈ transposeElements columns rows, LegalExpr table stage v x := by
  intro x hx
  obtain ⟨j, _, hx⟩ := List.mem_flatMap.mp hx
  obtain ⟨i, _, rfl⟩ := List.mem_map.mp hx
  exact legalExpr_element _ _

end Values

theorem paramLeaf_mem (signature : Signature) (i : Nat) :
    paramLeaf signature i ∈ signature.leaves := by
  cases signature with
  | value leaf => simp [paramLeaf, Signature.leaves]
  | function params result =>
      rw [paramLeaf, Signature.leaves]
      cases h : params[i]? with
      | none => simp
      | some t => simp [List.mem_of_getElem? h]

theorem result_mem (signature : Signature) : signature.result ∈ signature.leaves := by
  cases signature <;> simp [Signature.result, Signature.leaves]

theorem legalDecl_unaryFunction {signature : Signature}
    (hl : ∀ t ∈ signature.leaves, leafRule t v = none) {param : String} {body : List Stmt} :
    LegalDecl table stage v (unaryFunction signature param body).kind ↔
      LegalCode table stage v body := by
  rw [unaryFunction, Body.kind, legalDecl_function]
  simp [hl _ (paramLeaf_mem signature 0), hl _ (result_mem signature)]

def constructed? (e : Emulation) (signature : Signature) : Option Leaf :=
  match e with
  | .transpose => some signature.result
  | .inverse => some (paramLeaf signature 0)
  | _ => none

/-- An emulation is legal where the types of its signature are, and the constructor it calls. -/
theorem legalDecl_build (hb : ∀ form ∈ basis, Available table stage v form) {e : Emulation}
    (he : e.isCustom = false) {signature : Signature} (hl : ∀ t ∈ signature.leaves, leafRule t v = none)
    (hc : ∀ t ∈ constructed? e signature, Available table stage v (.call t.name)) :
    LegalDecl table stage v (e.build signature).kind := by
  -- The bodies without a matrix are single expressions over the basis.
  have simple {param : String} {x : Dialect.Expr} (hx : LegalExpr table stage v x) :
      LegalDecl table stage v (unaryFunction signature param [.return x]).kind :=
    (legalDecl_unaryFunction hl).mpr (legalCode_return.mpr hx)
  have hcall (name : String) (h : Form.call name ∈ basis) := hb _ h
  have hbinary (op : Dialect.BinaryOp) (h : Form.binary op ∈ basis) := hb _ h
  have hnegate : Available table stage v (.unary .negate) := hb _ (by decide)
  have hleaf (i : Nat) : leafRule (paramLeaf signature i) v = none :=
    hl _ (paramLeaf_mem signature i)
  cases e with
  | remainder =>
      rw [build, Body.kind, legalDecl_function, legalCode_return]
      simp [remainderValue, hl _ (result_mem signature), hleaf, hbinary, basis]
  | round => exact simple (by simp [roundValue, zeroPointFive, hcall, hbinary, basis])
  | truncate => exact simple (by simp [truncateValue, hcall, hbinary, basis])
  | sinh | cosh =>
      exact simple (by simp [exponentialPair, zeroPointFive, hcall, hbinary, hnegate, basis])
  | tanh =>
      refine (legalDecl_unaryFunction hl).mpr (legalCode_declare.mpr ⟨?_, ?_, legalCode_return.mpr ?_⟩)
      · simp [hleaf]
      · simp [doubledExponential, two, ten, minusTen, hcall, hbinary, basis]
      · simp [tanhValue, one, hbinary, basis]
  | isNaN =>
      refine simple ?_
      cases paramLeaf signature 0 <;> simp [isNaNValue, hcall, hbinary, basis]
  | transpose =>
      exact simple (legalExpr_native.mpr ⟨hc _ rfl, legalExpr_transposeElements _ _⟩)
  | determinant => exact simple (legalExpr_minor hb _ _)
  | inverse =>
      refine (legalDecl_unaryFunction hl).mpr (legalCode_declare.mpr ⟨?_, ?_, ?_⟩)
      · exact legalTy_leaf.mpr rfl
      · simpa [determinantValue] using legalExpr_minor hb _ _
      · exact legalCode_return.mpr
          (legalExpr_native.mpr ⟨hc _ rfl, legalExpr_inverseElements hb _⟩)
  | pi => exact legalDecl_constant.mpr ⟨legalTy_leaf.mpr rfl, legalExpr_float _⟩
  | custom => cases he

end Legality

end ShaderDialects
