import ShaderDialects.Lowering.Declaration

namespace ShaderDialects.Lowering

open Dialect (InterfaceVar OutputWrite Sink Storage UniformVar)

namespace Setting

variable (g : Setting)

def malformed {α : Type} (reason : Malformation) : Except Error α :=
  .error (.malformed g.shader.name reason)

def lowerSteps (c : Context) : List Step → Emit (List Dialect.Expr)
  | [] => return []
  | .bind binding value :: steps => do
      Code.declareLocal c binding value.isBranching (Code.ofExpr c value)
      lowerSteps c steps
  | .discard condition _ :: steps => do
      if g.shader.stage = .vertex then
        Emit.ofExcept (g.malformed .vertexDiscard)
      let condition ← (Code.ofExpr c condition).value
      let conditions ← lowerSteps c steps
      return condition :: conditions

/-- Where an output goes. A legacy fragment shader writes its colors to builtin variables, the
only color of a shader to one of its own if it is for attachment 0. -/
def sink (output : Output) (ident : String) : Except Error Sink :=
  match g.shader.stage, output.target with
  | .vertex, .varying => .ok (.var ident)
  | .vertex, .position => .ok .position
  | .fragment, .depth => .ok .fragDepth
  | .fragment, .attachment n =>
      if !g.version.isLegacy then .ok (.var ident)
      else if g.shader.attachments = [0] then .ok .fragColor
      else .ok (.fragData n)
  | stage, target => g.malformed (.wrongTarget output.name target stage)

def outputs : List (Output × String) := g.shader.outputs.zip (g.interface.outputs.map Item.ident)

def lowerAssignment (c : Context) (a : Assignment) : Emit OutputWrite := do
  match g.outputs[a.output]? with
  | none => Emit.ofExcept (g.malformed (.undeclaredOutput a.output))
  | some (output, ident) =>
      match output.ty with
      | .record _ => Emit.ofExcept (g.malformed (.recordOutput output.name))
      | .leaf leaf => do
          let value ← (Code.ofExpr c a.value).value
          return ⟨← Emit.ofExcept (g.sink output ident), leaf, value⟩

def lowerAssignments (c : Context) : List Assignment → Emit (List OutputWrite)
  | [] => return []
  | a :: as => do
      let write ← g.lowerAssignment c a
      let writes ← lowerAssignments c as
      return write :: writes

/-- The conditions of discards and the output writes; the statements it emits are the body. -/
def lowerBody (c : Context) : Emit (List Dialect.Expr × List OutputWrite) := do
  let discards ← g.lowerSteps c g.shader.steps
  let writes ← g.lowerAssignments c g.shader.assignments
  return (discards, writes)

def lowerMain (s : Progress) : Except Error Dialect.Main := do
  let done ← (g.lowerBody (g.context s)).run ⟨s.supply, []⟩
  let (discards, writes) := done.value
  match g.shader.stage with
  | .fragment => return .fragment done.stmts discards writes
  | .vertex =>
      if g.shader.positions = 1 then return .vertex done.stmts writes
      else g.malformed (.positions g.shader.positions)

def inputStorage (leaf : Leaf) : Storage :=
  match g.shader.stage, g.version.isLegacy with
  | .vertex, true => .attribute
  | .vertex, false => .input false
  | .fragment, true => .varying
  | .fragment, false => .input leaf.isInteger

def inputVar (input : Slot) (ident : String) : Except Error InterfaceVar :=
  match input.ty with
  | .record _ => g.malformed (.recordInput input.name)
  | .leaf leaf => .ok ⟨ident, leaf, g.inputStorage leaf⟩

def outputStorage? (leaf : Leaf) : Target → Option Storage
  | .varying => some (if g.version.isLegacy then .varying else .output leaf.isInteger none)
  | .attachment n => some (.output false (if g.version.hasLocations then some n else none))
  | .position | .depth => none

def outputVar? (output : Output) (ident : String) : Except Error (Option InterfaceVar) := do
  match ← g.sink output ident with
  | .var name =>
      match output.ty with
      | .record _ => g.malformed (.recordOutput output.name)
      | .leaf leaf =>
          return (g.outputStorage? leaf output.target).map fun storage => ⟨name, leaf, storage⟩
  | _ => return none

def inputVars : Except Error (List InterfaceVar) :=
  (g.shader.inputs.zip (g.interface.inputs.map Item.ident)).mapM fun (input, ident) =>
    g.inputVar input ident

def outputVars : Except Error (List InterfaceVar) := do
  let vars ← g.outputs.mapM fun (output, ident) => g.outputVar? output ident
  return vars.filterMap id

def uniformVars : List UniformVar :=
  g.interface.uniforms.map fun u => ⟨u.ident, u.uniform.name, u.uniform.leaf⟩

end Setting

def lower (p : Program) (s : Shader) (closure : Closure) (v : Version) (table : Table) :
    Except Error Dialect.Shader := do
  let (interface, supply) ←
    (Interface.assign p s (.forShader table.nativeNames)).mapError Error.fault
  let g : Setting := ⟨p, s, v, table, interface⟩
  let progress ← g.declareAll supply closure
  let main ← g.lowerMain progress
  let inputs ← g.inputVars
  let outputs ← g.outputVars
  return ⟨s.name, v, inputs, outputs, g.uniformVars, progress.decls, main, s.stage⟩

end ShaderDialects.Lowering
