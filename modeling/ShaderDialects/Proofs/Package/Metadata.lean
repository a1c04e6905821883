import ShaderDialects.Proofs.Package.Linking

namespace ShaderDialects

open Dialect (InterfaceVar OutputWrite Sink UniformVar)

def Item.typed (i : Item) : String × Ty := (i.ident, i.ty)

def Dialect.InterfaceVar.typed (x : InterfaceVar) : String × ShaderDialects.Ty := (x.name, .leaf x.leaf)

/-- Whether the output is written to a variable that the shader declares. -/
def Output.hasVariable (stage : Stage) (v : Version) (o : Output) : Bool :=
  match stage, o.target with
  | .vertex, .varying => true
  | .fragment, .attachment _ => !v.isLegacy
  | _, _ => false

namespace Interface

open Identifier (Supply)

variable {supply left : Supply} {p : Program} {s : Shader} {i : Interface}

end Interface

namespace Lowering

variable {g : Setting}

end Lowering

namespace Package

variable {p : Program} {s : Shader} {closure closure' : Closure} {v w : Version} {table : Table}
  {d e : Dialect.Shader} {i : Interface} {supply : Identifier.Supply}

/-- What the interface makes of a lowered shader. The closure has no part in it, and the version
decides only which outputs have variables. -/
structure Shows (s : Shader) (i : Interface) (v : Version) (d : Dialect.Shader) : Prop where
  name : d.name = s.name
  version : d.version = v
  stage : d.stage = s.stage
  uniforms : d.uniforms = i.uniforms.map fun u => ⟨u.ident, u.uniform.name, u.uniform.leaf⟩
  inputs : d.inputs.map InterfaceVar.typed = i.inputs.map Item.typed
  outputs : d.outputs.map InterfaceVar.typed =
    ((s.outputs.zip i.outputs).filter fun oi => oi.1.hasVariable s.stage v).map
      fun oi => oi.2.typed
  writes : List.Forall₂ (fun a o => ∃ item, i.outputs[a.output]? = some item ∧
    item.ty = .leaf o.leaf ∧ ∀ name, o.sink = .var name → name = item.ident)
    s.assignments d.main.outputs

namespace Lit

def float : Ty := .leaf .float

def program : Program where
  records := [⟨"Tone", [⟨"gain", float⟩], {}⟩, ⟨"Light", [⟨"tone", .record 0⟩, ⟨"level", float⟩], {}⟩]

def shader : Shader where
  name := "lit"
  stage := .fragment
  inputs := [⟨"shade", float, {}⟩, ⟨"color", float, {}⟩]
  outputs := [⟨⟨"color", float, {}⟩, .attachment 0⟩, ⟨⟨"depth", float, {}⟩, .depth⟩,
    ⟨⟨"glow", float, {}⟩, .attachment 1⟩]
  parameters := [⟨"light", .record 1, {}⟩]
  assignments := [⟨2, .input ⟨float, {}⟩ 0⟩, ⟨0, .input ⟨float, {}⟩ 1⟩, ⟨1, .input ⟨float, {}⟩ 0⟩]

end Lit

end Package

end ShaderDialects
