import ShaderDialects.Interface
import ShaderDialects.Lowering.Emit

namespace ShaderDialects.Lowering

open Dialect (Stmt)

inductive TermForm where
  | function (name : String)
  /-- A value, which is lowered to a function without parameters. -/
  | value (name : String)
  | native (form : Form)
  | emulatedFunction (name : String)
  | emulatedConstant (name : String)

structure StructNames where
  name : String
  fields : List String

/-- What is known while expressions are lowered. -/
structure Context where
  program : Program
  shader : Shader
  interface : Interface
  structs : List (Nat × StructNames)
  terms : List (Nat × TermForm)

namespace Context

variable (c : Context) {α : Type}

def malformed (reason : Malformation) : Except Error α := .error (.malformed c.shader.name reason)

def record (i : Nat) : Except Error Record := (c.program.record i).mapError .fault

def term (i : Nat) : Except Error Term := (c.program.term i).mapError .fault

def structNames (i : Nat) : Except Error StructNames :=
  match c.structs.lookup i with
  | some names => .ok names
  | none => do throw (.undeclared (← c.record i).name)

def termForm (i : Nat) : Except Error TermForm :=
  match c.terms.lookup i with
  | some form => .ok form
  | none => do throw (.undeclared (← c.term i).name)

def ty : Ty → Except Error Dialect.Ty
  | .leaf t => .ok (.leaf t)
  | .record i => (c.structNames i).map fun names => .struct names.name

/-- Refuses records that hold a sampler: the language cannot construct them. -/
def constructible (i : Nat) : Except Error Unit := do
  if ← (c.program.holdsSampler (.record i)).mapError .fault then
    c.malformed (.samplerRecord (← c.record i).name)

/-- The uniform of a parameter at a path. -/
def uniform? (parameter : Nat) (path : List Nat) : Option BoundUniform := do
  let uniforms ← c.interface.parameters[parameter]?
  uniforms.find? fun u => u.uniform.path = path

/-- Rebuilds the part of a parameter at `path` from its uniforms. -/
def rebuildWithin (depth : Nat) (parameter : Nat) (path : List Nat) :
    Ty → Except Error Dialect.Expr
  | .leaf _ =>
      match c.uniform? parameter path with
      | some u => .ok (.var u.ident)
      | none => c.malformed (.noUniform parameter path)
  | .record i => do
      c.constructible i
      let r ← c.record i
      match depth with
      | 0 => .error (.fault (.endless i))
      | depth + 1 => do
          let args ← r.fields.zipIdx.mapM fun (f, k) =>
            rebuildWithin depth parameter (path ++ [k]) f.ty
          return .user (← c.structNames i).name args
termination_by structural depth

def rebuild (parameter : Nat) (path : List Nat) (ty : Ty) : Except Error Dialect.Expr :=
  c.rebuildWithin c.program.records.length parameter path ty

def readTerm (i : Nat) : Except Error Dialect.Expr := do
  match ← c.termForm i with
  | .value name => return .user name []
  | .emulatedConstant name => return .var name
  | .native (.var name) => return .builtin name
  | .function _ | .emulatedFunction _ | .native _ =>
      c.malformed (.functionAsValue (← c.term i).name)

def applyTerm (i : Nat) (args : List Dialect.Expr) : Except Error Dialect.Expr := do
  match ← c.termForm i with
  | .function name | .emulatedFunction name => return .user name args
  | .native (.call name) => return .native name args
  | .native (.binary op) =>
      match args with
      | [left, right] => return .binary op left right
      | _ => c.malformed (.arity (← c.term i).name 2 args.length)
  | .native (.unary op) =>
      match args with
      | [operand] => return .unary op operand
      | _ => c.malformed (.arity (← c.term i).name 1 args.length)
  | .value _ | .emulatedConstant _ | .native (.var _) =>
      c.malformed (.valueApplied (← c.term i).name)

def fieldName (base : Ty) (index : Nat) : Except Error String := do
  match base with
  | .leaf _ => c.malformed .notRecord
  | .record i =>
      match (← c.structNames i).fields[index]? with
      | some name => return name
      | none => c.malformed (.noField index)

end Context

inductive Place where
  | result
  | assign (name : String)

def Place.write : Place → Dialect.Expr → Stmt
  | result, value => .return value
  | assign name, value => .assign name value

/-- A lowered expression: as a value to be used in another expression, and as statements that put
its value somewhere. -/
structure Code where
  value : Emit Dialect.Expr
  into : Place → Emit Unit

namespace Code

open Emit

variable (c : Context)

def ofValue (value : Emit Dialect.Expr) : Code where
  value := value
  into place := do emit (place.write (← value))

/-- The code of an expression whose value is computed into a new temporary by `compute`. -/
def ofStatements (ty : Ty) (compute : Place → Emit Unit) (into : Place → Emit Unit) : Code where
  value := do
    let name ← temporary
    emit (.declare name (← ofExcept (c.ty ty)) none)
    compute (.assign name)
    return .var name
  into := into

/-- Declares a local for a binding. Its name stands for it only once its value is computed. -/
def declareLocal (binding : Binding) (branching : Bool) (value : Code) : Emit Unit := do
  let name ← fresh binding.name
  let ty ← ofExcept (c.ty binding.ty)
  if branching then
    emit (.declare name ty none)
    value.into (.assign name)
  else
    emit (.declare name ty (some (← value.value)))
  bindLocal binding.id name

/-- A conditional statement of which either branch puts its value at the same place. -/
def choose (condition accept reject : Code) (place : Place) : Emit Unit := do
  let condition ← condition.value
  let accept ← capture (accept.into place)
  let reject ← capture (reject.into place)
  emit (.cond condition accept reject)

def inBlock (m : Emit Unit) : Emit Unit := do emit (.block (← capture m))

def readLocal (id : Nat) : Emit Dialect.Expr := do
  match ← local? id with
  | some name => return .var name
  | none => ofExcept (c.malformed (.unboundLocal id))

def readInput (index : Nat) : Except Error Dialect.Expr :=
  match c.interface.inputs[index]? with
  | some item => .ok (.var item.ident)
  | none => c.malformed (.undeclaredInput index)

mutual

def ofExpr : Expr → Code
  | .literal _ v => ofValue (return .literal v)
  | .bound _ id => ofValue (readLocal c id)
  | .input _ index => ofValue (ofExcept (readInput c index))
  | .parameter n index => ofValue (ofExcept (c.rebuild index [] n.ty))
  | .term _ t => ofValue (ofExcept (c.readTerm t))
  | .apply _ f args => ofValue do
      let args ← valuesOf args
      ofExcept (c.applyTerm f args)
  | .construct _ r fields => ofValue do
      ofExcept (c.constructible r)
      let args ← valuesOf fields
      return .user (← ofExcept (c.structNames r)).name args
  | .field n base index =>
      match (Expr.field n base index).parameterPath? with
      | some (parameter, path) => ofValue (ofExcept (c.rebuild parameter path n.ty))
      | none => ofValue do
          let name ← ofExcept (c.fieldName base.ty index)
          return .field (← (ofExpr base).value) name
  | .swizzle _ base s => ofValue do return .swizzle (← (ofExpr base).value) s
  | .cond n condition accept reject =>
      let into := choose (ofExpr condition) (ofExpr accept) (ofExpr reject)
      ofStatements c n.ty into into
  | .bind n binding value body =>
      let into place := do
        declareLocal c binding value.isBranching (ofExpr value)
        (ofExpr body).into place
      ofStatements c n.ty (fun place => inBlock (into place)) into

def valuesOf : List Expr → Emit (List Dialect.Expr)
  | [] => return []
  | e :: es => do
      let value ← (ofExpr e).value
      let values ← valuesOf es
      return value :: values

end

end Code

end ShaderDialects.Lowering
