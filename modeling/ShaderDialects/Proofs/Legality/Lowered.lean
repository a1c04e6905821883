import ShaderDialects.Legality.Lowered
import ShaderDialects.Proofs.Builtin.Availability

namespace ShaderDialects

namespace Dialect

namespace Expr

theorem nodesOf_eq_flatMap (es : List Expr) : nodesOf es = es.flatMap nodes := by
  induction es with
  | nil => rfl
  | cons e es ih => simp [nodesOf, ih]

def children : Expr → List Expr
  | literal _ | var _ | builtin _ => []
  | call _ args => args
  | binary _ l r => [l, r]
  | unary _ e | field e _ | swizzle e _ | index e _ => [e]

theorem nodes_eq (e : Expr) : e.nodes = e :: e.children.flatMap nodes := by
  cases e <;> simp [nodes, children, nodesOf_eq_flatMap]

end Expr

theorem Stmt.exprsOf_append (ss ss' : List Stmt) :
    Stmt.exprsOf (ss ++ ss') = Stmt.exprsOf ss ++ Stmt.exprsOf ss' := by
  induction ss with
  | nil => rfl
  | cons s ss ih => simp [Stmt.exprsOf, ih]

theorem Stmt.localTypesOf_append (ss ss' : List Stmt) :
    Stmt.localTypesOf (ss ++ ss') = Stmt.localTypesOf ss ++ Stmt.localTypesOf ss' := by
  induction ss with
  | nil => rfl
  | cons s ss ih => simp [Stmt.localTypesOf, ih]

end Dialect

namespace Legality

open Dialect (DeclKind Stmt)

theorem leafRule_eq_none {t : Leaf} {v : Version} :
    leafRule t v = none ↔ (t.isUnsigned = true → v.isSince .v300 .v130 = true) ∧
      (t.isNonSquare = true → v.isSince .v300 .v120 = true) := by
  rw [leafRule]
  cases t.isUnsigned <;> cases t.isNonSquare <;> cases v.isSince .v300 .v130 <;>
    cases v.isSince .v300 .v120 <;> decide

def LegalTy (v : Version) (ty : Dialect.Ty) : Prop := ∀ t, ty.leaf? = some t → leafRule t v = none

@[simp]
theorem legalTy_leaf {v : Version} {t : Leaf} : LegalTy v (.leaf t) ↔ leafRule t v = none := by
  simp [LegalTy, Dialect.Ty.leaf?]

@[simp]
theorem legalTy_struct (v : Version) (name : String) : LegalTy v (.struct name) := by
  simp [LegalTy, Dialect.Ty.leaf?]

theorem typeViolation?_eq_none {v : Version} {ty : Dialect.Ty} :
    typeViolation? v ty = none ↔ LegalTy v ty := by
  cases ty with
  | leaf t => cases h : leafRule t v <;> simp [typeViolation?, Dialect.Ty.leaf?, h]
  | struct name => simp [typeViolation?, Dialect.Ty.leaf?]

variable (table : Table) (stage : Stage) (v : Version)

def LegalExpr (e : Dialect.Expr) : Prop := ∀ x ∈ e.nodes, nodeViolation? table stage v x = none

/-- The types that statements declare locals with, and their expressions. -/
structure LegalCode (ss : List Stmt) : Prop where
  types : ∀ ty ∈ Stmt.localTypesOf ss, LegalTy v ty
  exprs : ∀ e ∈ Stmt.exprsOf ss, LegalExpr table stage v e

structure LegalDecl (k : DeclKind) : Prop where
  types : ∀ ty ∈ k.types, LegalTy v ty
  exprs : ∀ e ∈ k.exprs, LegalExpr table stage v e

def Available (form : Form) : Prop := (table.nativeAvailability form stage).contains v = true

variable {table stage v}

theorem legalExpr_iff {e : Dialect.Expr} :
    LegalExpr table stage v e ↔
      nodeViolation? table stage v e = none ∧ ∀ x ∈ e.children, LegalExpr table stage v x := by
  rw [LegalExpr, Dialect.Expr.nodes_eq]
  simp only [List.forall_mem_cons, List.forall_mem_flatMap, LegalExpr]

theorem nodeViolation?_eq_none_of_form {form : Form} {e : Dialect.Expr} (h : e.form? = some form) :
    nodeViolation? table stage v e = none ↔ Available table stage v form := by
  rw [nodeViolation?.eq_def]
  split
  · simp [Dialect.Expr.form?] at h
  · simp [h, Available]

theorem legalExpr_of_form {form : Form} {e : Dialect.Expr} (h : e.form? = some form) :
    LegalExpr table stage v e ↔
      Available table stage v form ∧ ∀ x ∈ e.children, LegalExpr table stage v x := by
  rw [legalExpr_iff, nodeViolation?_eq_none_of_form h]

theorem legalExpr_of_own {e : Dialect.Expr} (hl : ∀ l, e ≠ .literal l)
    (hforms : ∀ form, e.form? = some form → Available table stage v form)
    (hc : ∀ x ∈ e.children, LegalExpr table stage v x) : LegalExpr table stage v e := by
  refine legalExpr_iff.mpr ⟨?_, hc⟩
  cases h : e.form? with
  | some form => exact (nodeViolation?_eq_none_of_form h).mpr (hforms form h)
  | none =>
      rw [nodeViolation?.eq_def]
      split
      · exact absurd rfl (hl _)
      · rw [h]

section Expr

@[simp]
theorem legalExpr_literal {l : Literal} :
    LegalExpr table stage v (.literal l) ↔ leafRule l.leaf v = none := by
  rw [legalExpr_iff, Dialect.Expr.children]
  cases l with
  | uint n => simp [nodeViolation?, Literal.leaf]
  | _ => exact iff_of_true ⟨rfl, by simp⟩ rfl

@[simp]
theorem legalExpr_var (n : String) : LegalExpr table stage v (.var n) :=
  legalExpr_iff.mpr ⟨rfl, by simp [Dialect.Expr.children]⟩

@[simp]
theorem legalExpr_builtin {n : String} :
    LegalExpr table stage v (.builtin n) ↔ Available table stage v (.var n) :=
  (legalExpr_of_form rfl).trans (by simp [Dialect.Expr.children])

@[simp]
theorem legalExpr_native {n : String} {args : List Dialect.Expr} :
    LegalExpr table stage v (.native n args) ↔
      Available table stage v (.call n) ∧ ∀ x ∈ args, LegalExpr table stage v x :=
  legalExpr_of_form rfl

@[simp]
theorem legalExpr_user {n : String} {args : List Dialect.Expr} :
    LegalExpr table stage v (.user n args) ↔ ∀ x ∈ args, LegalExpr table stage v x :=
  legalExpr_iff.trans (and_iff_right rfl)

@[simp]
theorem legalExpr_binary {op : Dialect.BinaryOp} {l r : Dialect.Expr} :
    LegalExpr table stage v (.binary op l r) ↔
      Available table stage v (.binary op) ∧ LegalExpr table stage v l ∧
        LegalExpr table stage v r :=
  (legalExpr_of_form rfl).trans (by simp [Dialect.Expr.children])

@[simp]
theorem legalExpr_unary {op : Dialect.UnaryOp} {e : Dialect.Expr} :
    LegalExpr table stage v (.unary op e) ↔
      Available table stage v (.unary op) ∧ LegalExpr table stage v e :=
  (legalExpr_of_form rfl).trans (by simp [Dialect.Expr.children])

@[simp]
theorem legalExpr_field {e : Dialect.Expr} {n : String} :
    LegalExpr table stage v (.field e n) ↔ LegalExpr table stage v e :=
  (legalExpr_iff.trans (and_iff_right rfl)).trans (by simp [Dialect.Expr.children])

@[simp]
theorem legalExpr_swizzle {e : Dialect.Expr} {s : Swizzle} :
    LegalExpr table stage v (.swizzle e s) ↔ LegalExpr table stage v e :=
  (legalExpr_iff.trans (and_iff_right rfl)).trans (by simp [Dialect.Expr.children])

@[simp]
theorem legalExpr_index {e : Dialect.Expr} {i : Nat} :
    LegalExpr table stage v (.index e i) ↔ LegalExpr table stage v e :=
  (legalExpr_iff.trans (and_iff_right rfl)).trans (by simp [Dialect.Expr.children])

end Expr

section Code

theorem legalCode_nil : LegalCode table stage v [] :=
  ⟨by simp [Stmt.localTypesOf], by simp [Stmt.exprsOf]⟩

theorem legalCode_append {ss ss' : List Stmt} :
    LegalCode table stage v (ss ++ ss') ↔ LegalCode table stage v ss ∧ LegalCode table stage v ss' := by
  constructor
  · rintro ⟨ht, he⟩
    rw [Stmt.localTypesOf_append] at ht
    rw [Stmt.exprsOf_append] at he
    exact ⟨⟨fun ty h => ht ty (by simp [h]), fun e h => he e (by simp [h])⟩,
      fun ty h => ht ty (by simp [h]), fun e h => he e (by simp [h])⟩
  · rintro ⟨⟨ht, he⟩, ht', he'⟩
    refine ⟨fun ty h => ?_, fun e h => ?_⟩
    · rw [Stmt.localTypesOf_append] at h
      exact (List.mem_append.mp h).elim (ht ty) (ht' ty)
    · rw [Stmt.exprsOf_append] at h
      exact (List.mem_append.mp h).elim (he e) (he' e)

theorem legalCode_declare {n : String} {ty : Dialect.Ty} {init : Option Dialect.Expr}
    {ss : List Stmt} :
    LegalCode table stage v (.declare n ty init :: ss) ↔
      LegalTy v ty ∧ (∀ x ∈ init, LegalExpr table stage v x) ∧ LegalCode table stage v ss := by
  constructor
  · rintro ⟨ht, he⟩
    simp only [Stmt.localTypesOf, Stmt.localTypes, Stmt.exprsOf, Stmt.exprs,
      List.forall_mem_append, Option.mem_toList, List.forall_mem_singleton] at ht he
    exact ⟨ht.1, he.1, ht.2, he.2⟩
  · rintro ⟨hty, hinit, ht, he⟩
    constructor
    · simpa [Stmt.localTypesOf, Stmt.localTypes] using ⟨hty, ht⟩
    · simpa only [Stmt.exprsOf, Stmt.exprs, List.forall_mem_append, Option.mem_toList] using
        ⟨hinit, he⟩

theorem legalCode_assign {n : String} {x : Dialect.Expr} :
    LegalCode table stage v [.assign n x] ↔ LegalExpr table stage v x := by
  constructor
  · exact fun h => h.exprs x (by simp [Stmt.exprsOf, Stmt.exprs])
  · intro h
    exact ⟨by simp [Stmt.localTypesOf, Stmt.localTypes], by simpa [Stmt.exprsOf, Stmt.exprs] using h⟩

theorem legalCode_return {x : Dialect.Expr} :
    LegalCode table stage v [.return x] ↔ LegalExpr table stage v x := by
  constructor
  · exact fun h => h.exprs x (by simp [Stmt.exprsOf, Stmt.exprs])
  · intro h
    exact ⟨by simp [Stmt.localTypesOf, Stmt.localTypes], by simpa [Stmt.exprsOf, Stmt.exprs] using h⟩

theorem legalCode_block {body : List Stmt} :
    LegalCode table stage v [.block body] ↔ LegalCode table stage v body := by
  have ht : Stmt.localTypesOf [.block body] = Stmt.localTypesOf body := by
    simp [Stmt.localTypesOf, Stmt.localTypes]
  have he : Stmt.exprsOf [.block body] = Stmt.exprsOf body := by simp [Stmt.exprsOf, Stmt.exprs]
  constructor
  · exact fun h => ⟨ht ▸ h.types, he ▸ h.exprs⟩
  · exact fun h => ⟨ht.symm ▸ h.types, he.symm ▸ h.exprs⟩

theorem legalCode_cond {x : Dialect.Expr} {accept reject : List Stmt} :
    LegalCode table stage v [.cond x accept reject] ↔
      LegalExpr table stage v x ∧ LegalCode table stage v accept ∧
        LegalCode table stage v reject := by
  constructor
  · rintro ⟨ht, he⟩
    simp only [Stmt.localTypesOf, Stmt.localTypes, Stmt.exprsOf, Stmt.exprs, List.append_nil,
      List.forall_mem_append, List.forall_mem_cons] at ht he
    exact ⟨he.1, ⟨ht.1, he.2.1⟩, ht.2, he.2.2⟩
  · rintro ⟨hx, ha, hr⟩
    constructor
    · simpa only [Stmt.localTypesOf, Stmt.localTypes, List.append_nil, List.forall_mem_append] using
        ⟨ha.types, hr.types⟩
    · simpa only [Stmt.exprsOf, Stmt.exprs, List.append_nil, List.forall_mem_append,
        List.forall_mem_cons] using ⟨hx, ha.exprs, hr.exprs⟩

theorem legalDecl_function {params : List Dialect.Variable} {result : Dialect.Ty}
    {body : List Stmt} :
    LegalDecl table stage v (.function params result body) ↔
      (∀ x ∈ params, LegalTy v x.ty) ∧ LegalTy v result ∧ LegalCode table stage v body := by
  constructor
  · rintro ⟨ht, he⟩
    simp only [DeclKind.types, DeclKind.signatureTypes, DeclKind.localTypes,
      List.forall_mem_append, List.forall_mem_map, List.forall_mem_singleton] at ht
    exact ⟨ht.1.1, ht.1.2, ht.2, he⟩
  · rintro ⟨hp, hr, hb⟩
    refine ⟨?_, hb.exprs⟩
    simpa only [DeclKind.types, DeclKind.signatureTypes, DeclKind.localTypes,
      List.forall_mem_append, List.forall_mem_map, List.forall_mem_singleton] using
        ⟨⟨hp, hr⟩, hb.types⟩

theorem legalDecl_struct {fields : List Dialect.Variable} :
    LegalDecl table stage v (.struct fields) ↔ ∀ x ∈ fields, LegalTy v x.ty := by
  constructor
  · rintro ⟨ht, _⟩
    simpa [DeclKind.types, DeclKind.signatureTypes, DeclKind.localTypes] using ht
  · intro h
    refine ⟨?_, by simp [DeclKind.exprs]⟩
    simpa [DeclKind.types, DeclKind.signatureTypes, DeclKind.localTypes] using h

theorem legalDecl_constant {ty : Dialect.Ty} {x : Dialect.Expr} :
    LegalDecl table stage v (.constant ty x) ↔ LegalTy v ty ∧ LegalExpr table stage v x := by
  constructor
  · exact fun h => ⟨h.types ty (by simp [DeclKind.types, DeclKind.signatureTypes]),
      h.exprs x (by simp [DeclKind.exprs])⟩
  · rintro ⟨ht, hx⟩
    constructor
    · simpa [DeclKind.types, DeclKind.signatureTypes, DeclKind.localTypes] using ht
    · simpa [DeclKind.exprs] using hx

end Code

variable (table) in
/-- All parts of a lowered shader are as its version allows. -/
structure Conforms (d : Dialect.Shader) : Prop where
  inputs : ∀ x ∈ d.inputs, variableRule d.version (d.stage = .fragment) x = none
  outputs : ∀ x ∈ d.outputs, variableRule d.version (d.stage = .vertex) x = none
  uniforms : ∀ u ∈ d.uniforms, leafRule u.leaf d.version = none
  writes : ∀ o ∈ d.main.outputs, sinkRule d.version o.leaf o.sink = none
  decls : ∀ decl ∈ d.decls, LegalDecl table d.stage d.version decl.kind
  body : LegalCode table d.stage d.version d.main.statements
  discards : ∀ x ∈ d.main.discards, LegalExpr table d.stage d.version x
  values : ∀ o ∈ d.main.outputs, LegalExpr table d.stage d.version o.value

theorem violation?_eq_none {d : Dialect.Shader} : violation? table d = none ↔ Conforms table d := by
  have htypes : (∀ ty ∈ d.types, typeViolation? d.version ty = none) ↔
      (∀ decl ∈ d.decls, ∀ ty ∈ decl.kind.types, LegalTy d.version ty) ∧
        ∀ ty ∈ Stmt.localTypesOf d.main.statements, LegalTy d.version ty := by
    simp only [typeViolation?_eq_none, Dialect.Shader.types, List.forall_mem_append,
      List.forall_mem_flatMap]
  have hnodes : (∀ x ∈ d.nodes, nodeViolation? table d.stage d.version x = none) ↔
      (∀ decl ∈ d.decls, ∀ e ∈ decl.kind.exprs, LegalExpr table d.stage d.version e) ∧
        (∀ e ∈ Stmt.exprsOf d.main.statements, LegalExpr table d.stage d.version e) ∧
          (∀ e ∈ d.main.discards, LegalExpr table d.stage d.version e) ∧
            ∀ o ∈ d.main.outputs, LegalExpr table d.stage d.version o.value := by
    simp only [Dialect.Shader.nodes, DeclKind.nodes, Dialect.Main.exprs, List.forall_mem_append,
      List.forall_mem_flatMap, List.forall_mem_map, LegalExpr, and_assoc]
  simp only [violation?, Option.orElse_eq_orElse, Option.orElse_eq_or, Option.or_eq_none_iff,
    List.findSome?_eq_none_iff, htypes, hnodes, inputViolation?, outputViolation?,
    uniformViolation?, writeViolation?, Option.map_eq_none_iff]
  constructor
  · rintro ⟨hi, ho, hu, hw, ⟨htd, htb⟩, hxd, hxb, hds, hvs⟩
    exact ⟨hi, ho, hu, hw, fun decl h => ⟨htd decl h, hxd decl h⟩, ⟨htb, hxb⟩, hds, hvs⟩
  · rintro ⟨hi, ho, hu, hw, hd, hb, hds, hvs⟩
    exact ⟨hi, ho, hu, hw, ⟨fun decl h => (hd decl h).types, hb.types⟩,
      fun decl h => (hd decl h).exprs, hb.exprs, hds, hvs⟩

theorem checkLowered_eq_ok {d : Dialect.Shader} {u : Unit} :
    checkLowered table d = .ok u ↔ Conforms table d := by
  rw [← violation?_eq_none, checkLowered]
  split <;> simp_all

end Legality

end ShaderDialects
