import ShaderDialects.Proofs.Builtin.Closed
import ShaderDialects.Proofs.Lowering.Context

namespace ShaderDialects

namespace Dialect

namespace DeclKind

def isStruct : DeclKind → Bool
  | struct _ => true
  | _ => false

def isFunction : DeclKind → Bool
  | function _ _ _ => true
  | _ => false

def isConstant : DeclKind → Bool
  | constant _ _ => true
  | _ => false

end DeclKind

def Origin.isEmulation : Origin → Bool
  | emulation _ => true
  | _ => false

structure Visible where
  names : List String
  decls : List Decl

namespace Visible

variable (V : Visible) (name : String)

def Struct : Prop := ∃ d ∈ V.decls, d.name = name ∧ d.kind.isStruct = true

def Function : Prop := ∃ d ∈ V.decls, d.name = name ∧ d.kind.isFunction = true

/-- Only emulations are declared as constants that can be read. -/
def Constant : Prop :=
  ∃ d ∈ V.decls, d.name = name ∧ d.kind.isConstant = true ∧ d.origin.isEmulation = true

def withParams (params : List Variable) : Visible :=
  { V with names := params.map Variable.name ++ V.names }

end Visible

variable (V : Visible)

def Ty.Scoped : Ty → Prop
  | leaf _ => True
  | struct name => V.Struct name

namespace Expr

mutual

/-- The expression reads visible variables only, and calls the language, visible functions and the
constructors of visible structs. -/
def Scoped (locals : List String) : Expr → Prop
  | literal _ | builtin _ => True
  | var n => n ∈ locals ∨ n ∈ V.names ∨ V.Constant n
  | call (.native _) args => ScopedAll locals args
  | call (.user n) args => (V.Function n ∨ V.Struct n) ∧ ScopedAll locals args
  | binary _ l r => Scoped locals l ∧ Scoped locals r
  | unary _ e => Scoped locals e
  | field e _ => Scoped locals e
  | swizzle e _ => Scoped locals e
  | index e _ => Scoped locals e

def ScopedAll (locals : List String) : List Expr → Prop
  | [] => True
  | e :: es => Scoped locals e ∧ ScopedAll locals es

end

variable {V} {locals locals' : List String}

theorem scopedAll_iff {es : List Expr} :
    ScopedAll V locals es ↔ ∀ e ∈ es, e.Scoped V locals := by
  induction es with
  | nil => simp [ScopedAll]
  | cons e es ih => simp [ScopedAll, ih]

theorem Scoped.mono {e : Expr} (h : e.Scoped V locals) (hl : locals ⊆ locals') :
    e.Scoped V locals' := by
  induction e with
  | literal v | builtin n => trivial
  | var n => exact h.imp_left fun hn => hl hn
  | call f args ih =>
      cases f with
      | native n => exact scopedAll_iff.mpr fun e he => ih e he (scopedAll_iff.mp h e he)
      | user n => exact ⟨h.1, scopedAll_iff.mpr fun e he => ih e he (scopedAll_iff.mp h.2 e he)⟩
  | binary op l r ihl ihr => exact ⟨ihl h.1, ihr h.2⟩
  | unary op e ih | field e n ih | swizzle e s ih | index e i ih => exact ih h

theorem Closed.scoped {e : Expr} {names : List String} (h : e.Closed names)
    (hn : ∀ n ∈ names, n ∈ locals ∨ n ∈ V.names) : e.Scoped V locals := by
  induction e with
  | literal v | builtin n => trivial
  | var n => exact (hn n h).imp_right .inl
  | call f args ih =>
      cases f with
      | native n => exact scopedAll_iff.mpr fun e he => ih e he (closedAll_iff.mp h e he)
      | user n => exact h.elim
  | binary op l r ihl ihr => exact ⟨ihl h.1, ihr h.2⟩
  | field e n ih => exact h.elim
  | unary op e ih | swizzle e s ih | index e i ih => exact ih h

end Expr

namespace Stmt

def extend (locals : List String) : Stmt → List String
  | declare name _ _ => name :: locals
  | _ => locals

def after (locals : List String) (ss : List Stmt) : List String := ss.foldl extend locals

mutual

def Scoped (locals : List String) : Stmt → Prop
  | declare _ ty init => ty.Scoped V ∧ ∀ e ∈ init, e.Scoped V locals
  | assign target value => target ∈ locals ∧ value.Scoped V locals
  | cond c accept reject =>
      c.Scoped V locals ∧ ScopedAll locals accept ∧ ScopedAll locals reject
  | block body => ScopedAll locals body
  | .return value => value.Scoped V locals

def ScopedAll (locals : List String) : List Stmt → Prop
  | [] => True
  | s :: ss => Scoped locals s ∧ ScopedAll (extend locals s) ss

end

variable {V} {locals : List String}

theorem scoped_declare_none {name : String} {ty : Ty} :
    (declare name ty none).Scoped V locals ↔ ty.Scoped V := by
  simp [Scoped]

theorem scoped_declare_some {name : String} {ty : Ty} {init : Expr} :
    (declare name ty (some init)).Scoped V locals ↔ ty.Scoped V ∧ init.Scoped V locals := by
  simp [Scoped]

theorem after_append (ss ss' : List Stmt) : after locals (ss ++ ss') = after (after locals ss) ss' :=
  List.foldl_append

theorem subset_after (ss : List Stmt) : locals ⊆ after locals ss := by
  induction ss generalizing locals with
  | nil => exact List.Subset.refl locals
  | cons s ss ih =>
      refine List.Subset.trans ?_ (@ih (extend locals s))
      cases s with
      | declare name ty init => exact List.subset_cons_self name locals
      | _ => exact List.Subset.refl locals

theorem scopedAll_append {ss ss' : List Stmt} :
    ScopedAll V locals (ss ++ ss') ↔
      ScopedAll V locals ss ∧ ScopedAll V (after locals ss) ss' := by
  induction ss generalizing locals with
  | nil => simp [ScopedAll, after]
  | cons s ss ih =>
      rw [List.cons_append, ScopedAll, ih, ScopedAll, and_assoc]
      rfl

theorem Closed.scoped {ss : List Stmt} {names : List String} (h : Closed names ss)
    (hn : ∀ n ∈ names, n ∈ locals ∨ n ∈ V.names) : ScopedAll V locals ss := by
  induction h generalizing locals with
  | ret he => exact ⟨he.scoped hn, trivial⟩
  | cond hc _ _ iha ihr => exact ⟨⟨hc.scoped hn, iha hn, ihr hn⟩, trivial⟩
  | @declare _ n _ _ _ he _ ih =>
      refine ⟨scoped_declare_some.mpr ⟨trivial, he.scoped hn⟩, ih fun m hm => ?_⟩
      rcases List.mem_cons.mp hm with rfl | hm
      · exact .inl List.mem_cons_self
      · exact (hn m hm).imp_left (List.mem_cons_of_mem n)

end Stmt

def DeclKind.Scoped : DeclKind → Prop
  | struct fields => ∀ f ∈ fields, f.ty.Scoped V
  | function params result body =>
      (∀ q ∈ params, q.ty.Scoped V) ∧ result.Scoped V ∧ Stmt.ScopedAll (V.withParams params) [] body
  | constant ty value => ty.Scoped V ∧ value.Scoped V []

structure Main.Scoped (m : Main) : Prop where
  statements : Stmt.ScopedAll V [] m.statements
  discards : ∀ e ∈ m.discards, e.Scoped V (Stmt.after [] m.statements)
  outputs : ∀ o ∈ m.outputs, o.value.Scoped V (Stmt.after [] m.statements)

def Shader.globals (s : Shader) : List String :=
  s.inputs.map InterfaceVar.name ++ s.uniforms.map UniformVar.name

/-- All that a shader refers to is visible where it does: declarations come before their uses, and
emulations use none. -/
structure Shader.WellScoped (s : Shader) : Prop where
  decls : ∀ (k : Nat) (d : Decl), s.decls[k]? = some d →
    d.kind.Scoped ⟨s.globals, s.decls.take k⟩
  emulations : ∀ d ∈ s.decls, d.origin.isEmulation = true → d.kind.Scoped ⟨[], []⟩
  main : s.main.Scoped ⟨s.globals, s.decls⟩

end Dialect

end ShaderDialects
