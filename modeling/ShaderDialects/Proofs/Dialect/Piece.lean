import ShaderDialects.Proofs.Dialect.Path

namespace ShaderDialects.Dialect

inductive Piece where
  | decl (kind : DeclKind)
  | stmt (stmt : Stmt)
  | expr (expr : Expr)
  | ty (ty : Ty)

namespace Piece

def pieces : Piece → List Piece
  | decl (.struct fields) => fields.map fun x => ty x.ty
  | decl (.function params result body) =>
      params.map (fun x => ty x.ty) ++ ty result :: body.map stmt
  | decl (.constant t value) => [ty t, expr value]
  | stmt (.declare _ t init) => ty t :: init.toList.map expr
  | stmt (.assign _ value) => [expr value]
  | stmt (.cond c accept reject) => expr c :: (accept.map stmt ++ reject.map stmt)
  | stmt (.block body) => body.map stmt
  | stmt (.return value) => [expr value]
  | expr e => e.children.map expr
  | ty _ => []

def at? (x : Piece) : List Nat → Option Piece
  | [] => some x
  | k :: place => x.pieces[k]?.bind fun y => y.at? place

def ty? : Piece → Option Ty
  | ty t => some t
  | _ => none

def expr? : Piece → Option Expr
  | expr e => some e
  | _ => none

@[elab_as_elim]
theorem induct {motive : Piece → Prop} (step : ∀ x, (∀ y ∈ x.pieces, motive y) → motive x)
    (x : Piece) : motive x := by
  have hty (t : Ty) : motive (ty t) := step _ (by simp [pieces])
  have hexpr (e : Expr) : motive (expr e) := by
    induction e using Expr.inductChildren with
    | step e ih => exact step _ (by simpa [pieces] using ih)
  have hstmts (ss : List Stmt) : ∀ s ∈ ss, motive (stmt s) := by
    induction ss using Stmt.inductOf with
    | nil => exact List.forall_mem_nil _
    | declare n t init ss ih =>
        refine List.forall_mem_cons.mpr ⟨step _ ?_, ih⟩
        simp only [pieces, List.forall_mem_cons, List.forall_mem_map]
        exact ⟨hty t, fun e _ => hexpr e⟩
    | assign n value ss ih | ret value ss ih =>
        exact List.forall_mem_cons.mpr ⟨step _ (List.forall_mem_singleton.mpr (hexpr value)), ih⟩
    | cond c accept reject ss iha ihr ih =>
        refine List.forall_mem_cons.mpr ⟨step _ ?_, ih⟩
        simp only [pieces, List.forall_mem_cons, List.forall_mem_append, List.forall_mem_map]
        exact ⟨hexpr c, iha, ihr⟩
    | block body ss ihb ih =>
        exact List.forall_mem_cons.mpr ⟨step _ (List.forall_mem_map.mpr ihb), ih⟩
  cases x with
  | ty t => exact hty t
  | expr e => exact hexpr e
  | stmt s => exact hstmts [s] s List.mem_cons_self
  | decl kind =>
      cases kind with
      | struct fields => exact step _ (List.forall_mem_map.mpr fun x _ => hty x.ty)
      | constant t value => exact step _ (by simp [pieces, hty, hexpr])
      | function params result body =>
          refine step _ ?_
          simp only [pieces, List.forall_mem_cons, List.forall_mem_append, List.forall_mem_map]
          exact ⟨fun x _ => hty x.ty, hty result, hstmts body⟩

def types : Piece → List Ty
  | decl kind => kind.types
  | stmt s => s.localTypes
  | expr _ => []
  | ty t => [t]

def nodes : Piece → List Expr
  | decl kind => kind.nodes
  | stmt s => s.exprs.flatMap Expr.nodes
  | expr e => e.nodes
  | ty _ => []

section FlatMap

@[simp]
theorem flatMap_types_stmts (ss : List Stmt) :
    (ss.map stmt).flatMap types = Stmt.localTypesOf ss := by
  induction ss with
  | nil => rfl
  | cons s ss ih => simpa [Stmt.localTypesOf, types] using ih

@[simp]
theorem flatMap_types_exprs (es : List Expr) : (es.map expr).flatMap types = [] := by
  simp [types]

@[simp]
theorem flatMap_types_tys (xs : List Variable) :
    (xs.map fun x => ty x.ty).flatMap types = xs.map Variable.ty := by
  rw [List.flatMap_map, List.map_eq_flatMap]
  rfl

@[simp]
theorem flatMap_nodes_stmts (ss : List Stmt) :
    (ss.map stmt).flatMap nodes = (Stmt.exprsOf ss).flatMap Expr.nodes := by
  induction ss with
  | nil => rfl
  | cons s ss ih => simpa [Stmt.exprsOf, nodes] using ih

@[simp]
theorem flatMap_nodes_exprs (es : List Expr) :
    (es.map expr).flatMap nodes = es.flatMap Expr.nodes := by
  simp [List.flatMap_map, nodes]

@[simp]
theorem flatMap_nodes_tys (xs : List Variable) : (xs.map fun x => ty x.ty).flatMap nodes = [] := by
  simp [nodes]

end FlatMap

theorem types_eq (x : Piece) : x.types = x.ty?.toList ++ x.pieces.flatMap types := by
  cases x with
  | ty t => rfl
  | expr e => exact (flatMap_types_exprs e.children).symm
  | stmt s => cases s <;> simp [pieces, types, ty?, Stmt.localTypes]
  | decl kind =>
      cases kind <;> simp [pieces, types, ty?, DeclKind.types, DeclKind.signatureTypes,
        DeclKind.localTypes]

theorem nodes_eq (x : Piece) : x.nodes = x.expr?.toList ++ x.pieces.flatMap nodes := by
  cases x with
  | ty t => rfl
  | expr e => simp [pieces, nodes, expr?, Expr.nodes_eq]
  | stmt s => cases s <;> simp [pieces, nodes, expr?, Stmt.exprs]
  | decl kind => cases kind <;> simp [pieces, nodes, expr?, DeclKind.nodes, DeclKind.exprs]

end Piece

namespace Shader

def roots (d : Shader) : List Piece :=
  d.decls.map (fun decl => .decl decl.kind) ++ d.main.statements.map .stmt
    ++ (d.main.discards ++ d.main.outputs.map OutputWrite.value).map .expr

def pieceAt? (d : Shader) : List Nat → Option Piece
  | [] => none
  | k :: place => d.roots[k]?.bind fun x => x.at? place

theorem types_eq (d : Shader) : d.types = d.roots.flatMap Piece.types := by
  have hdecls : (d.decls.map fun decl => Piece.decl decl.kind).flatMap Piece.types =
      d.decls.flatMap fun decl => decl.kind.types := by
    simp [List.flatMap_map, Piece.types]
  simp only [types, roots, List.flatMap_append, hdecls, Piece.flatMap_types_stmts,
    Piece.flatMap_types_exprs, List.append_nil]

theorem nodes_eq (d : Shader) : d.nodes = d.roots.flatMap Piece.nodes := by
  have hdecls : (d.decls.map fun decl => Piece.decl decl.kind).flatMap Piece.nodes =
      d.decls.flatMap fun decl => decl.kind.nodes := by
    simp [List.flatMap_map, Piece.nodes]
  simp only [nodes, roots, Main.exprs, List.flatMap_append, hdecls, Piece.flatMap_nodes_stmts,
    Piece.flatMap_nodes_exprs, List.append_assoc]

end Shader

end ShaderDialects.Dialect
