import ShaderDialects.Builtin.Table
import ShaderDialects.Dialect.Traverse
import ShaderDialects.Legality.Rule

namespace ShaderDialects.Legality

open Dialect (Expr InterfaceVar OutputWrite Storage UniformVar)

abbrev Violation := Subject × Objection

variable (table : Table) (stage : Stage) (v : Version)

def storageRule (interpolated : Bool) (t : Leaf) : Storage → Option Objection
  | .attribute | .varying => if v.isLegacy then integerRule t v else some .storageRemoved
  | .input flat =>
      if v.isLegacy then some .storageMissing
      else if interpolated && t.isInteger && !flat then some .notFlat
      else none
  | .output flat location =>
      if v.isLegacy then some .storageMissing
      else if location.isSome && !v.hasLocations then some .locationMissing
      else if interpolated && t.isInteger && !flat then some .notFlat
      else none

def variableRule (interpolated : Bool) (x : InterfaceVar) : Option Objection :=
  interfaceRule x.leaf <|> leafRule x.leaf v <|> storageRule v interpolated x.leaf x.storage

def inputViolation? (x : InterfaceVar) : Option Violation :=
  (variableRule v (stage = .fragment) x).map fun o => (.input x.name, o)

def outputViolation? (x : InterfaceVar) : Option Violation :=
  (variableRule v (stage = .vertex) x).map fun o => (.output x.name, o)

def uniformViolation? (u : UniformVar) : Option Violation :=
  (leafRule u.leaf v).map fun o => (.uniform u.wireName, o)

def sinkRule (t : Leaf) : Dialect.Sink → Option Objection
  | .var _ => none
  | .position => positionRule t
  | .fragColor => colorSinkRule v <|> attachmentRule 0 t v
  | .fragData n => colorSinkRule v <|> attachmentRule n t v
  | .fragDepth => depthRule t v

def writeViolation? (o : OutputWrite) : Option Violation :=
  (sinkRule v o.leaf o.sink).map fun objection => (.write o.sink, objection)

def typeViolation? (ty : Dialect.Ty) : Option Violation := do
  let t ← ty.leaf?
  let o ← leafRule t v
  return (.type t, o)

/-- The violation of a node itself: an unsigned literal or a native form where there is none. -/
def nodeViolation? (e : Dialect.Expr) : Option Violation :=
  match e with
  | .literal (.uint _) => (leafRule .uint v).map fun o => (.unsignedLiteral, o)
  | _ =>
      match e.form? with
      | some form =>
          if (table.nativeAvailability form stage).contains v then none
          else some (.native form, .builtinUnavailable)
      | none => none

def violation? (s : Dialect.Shader) : Option Violation :=
  s.inputs.findSome? (inputViolation? s.stage s.version)
    <|> s.outputs.findSome? (outputViolation? s.stage s.version)
    <|> s.uniforms.findSome? (uniformViolation? s.version)
    <|> s.main.outputs.findSome? (writeViolation? s.version)
    <|> s.types.findSome? (typeViolation? s.version)
    <|> s.nodes.findSome? (nodeViolation? table s.stage s.version)

def checkLowered (s : Dialect.Shader) : Except Error Unit :=
  match violation? table s with
  | some (subject, objection) => .error (.unsupported s.name s.version subject (some objection))
  | none => .ok ()

end ShaderDialects.Legality
