import ShaderDialects.Lowering.Expr
import ShaderDialects.Source.Closure

namespace ShaderDialects.Lowering

open Dialect (Decl DeclKind Variable)
open Identifier (Supply)

/-- What stays the same while a shader is lowered. -/
structure Setting where
  program : Program
  shader : Shader
  version : Version
  table : Table
  interface : Interface

/-- The declarations lowered so far, and how to refer to them. -/
structure Progress where
  supply : Supply
  structs : List (Nat × StructNames) := []
  terms : List (Nat × TermForm) := []
  decls : List Decl := []

namespace Setting

variable (g : Setting) (s : Progress)

def context : Context := ⟨g.program, g.shader, g.interface, s.structs, s.terms⟩

def lowerFields (c : Context) : Supply → List Field → Except Error (List Variable)
  | _, [] => .ok []
  | supply, f :: fs => do
      let (name, supply) := supply.fresh f.name
      let ty ← c.ty f.ty
      let rest ← lowerFields c supply fs
      return ⟨name, ty⟩ :: rest

def declareRecord (i : Nat) : Except Error Progress := do
  let r ← (g.program.record i).mapError Error.fault
  let (name, supply) := s.supply.fresh r.name
  let fields ← lowerFields (g.context s) .forFields r.fields
  return { s with
    supply := supply
    structs := (i, ⟨name, fields.map Variable.name⟩) :: s.structs
    decls := s.decls ++ [⟨name, .record i r.name, .struct fields⟩] }

def lowerParam (c : Context) (b : Binding) : Emit Variable := do
  let name ← Emit.fresh b.name
  Emit.bindLocal b.id name
  return ⟨name, ← Emit.ofExcept (c.ty b.ty)⟩

def lowerParams (c : Context) : List Binding → Emit (List Variable)
  | [] => return []
  | b :: bs => do
      let param ← lowerParam c b
      let params ← lowerParams c bs
      return param :: params

/-- The head of a function; the statements it emits are the body. -/
def lowerFunction (c : Context) (params : List Binding) (result : Ty) (body : Expr) :
    Emit (List Variable × Dialect.Ty) := do
  let params ← lowerParams c params
  let result ← Emit.ofExcept (c.ty result)
  (Code.ofExpr c body).into .result
  return (params, result)

def declareFunction (i : Nat) (t : Term) (form : String → TermForm) (params : List Binding)
    (result : Ty) (body : Expr) : Except Error Progress := do
  let (name, supply) := s.supply.fresh t.name
  let done ← (lowerFunction (g.context s) params result body).run ⟨supply, []⟩
  let (params, result) := done.value
  return { s with
    supply := done.scope.supply
    terms := (i, form name) :: s.terms
    decls := s.decls ++ [⟨name, .term i t.name, .function params result done.stmts⟩] }

def declareEmulation (i : Nat) (t : Term) (symbol : String) (body : Emulation.Body) : Progress :=
  let (name, supply) := s.supply.fresh (t.name ++ "_emulated")
  let (form, kind) : TermForm × DeclKind := match body with
    | .function params result body =>
        (.emulatedFunction name,
         .function (params.map fun (n, leaf) => ⟨n, .leaf leaf⟩) (.leaf result) body)
    | .constant leaf value => (.emulatedConstant name, .constant (.leaf leaf) value)
  { s with
    supply := supply
    terms := (i, form) :: s.terms
    decls := s.decls ++ [⟨name, .emulation symbol, kind⟩] }

def declareExternal (i : Nat) (t : Term) (symbol : String) (signature : Signature) :
    Except Error Progress := do
  match ← (g.table.resolve symbol signature.kind g.version g.shader.stage).mapError .builtin with
  | .native form => return { s with terms := (i, .native form) :: s.terms }
  | .emulated e => return declareEmulation s i t symbol (e.build signature)

def declareTerm (i : Nat) : Except Error Progress := do
  let t ← (g.program.term i).mapError Error.fault
  match t.kind with
  | .function params result body => g.declareFunction s i t .function params result body
  | .value ty body => g.declareFunction s i t .value [] ty body
  | .external symbol signature => g.declareExternal s i t symbol signature

def declare : DeclId → Except Error Progress
  | .record i => g.declareRecord s i
  | .term i => g.declareTerm s i

def declareAll (supply : Supply) (closure : Closure) : Except Error Progress :=
  closure.order.foldlM g.declare ⟨supply, [], [], []⟩

end Setting

end ShaderDialects.Lowering
