import ShaderDialects.Identifier.Supply
import ShaderDialects.Source.Shader
import ShaderDialects.Source.Uniform

namespace ShaderDialects

open Identifier (Supply)

structure Item where
  name : String
  ident : String
  ty : Ty

structure BoundUniform where
  ident : String
  uniform : Uniform

structure Interface where
  inputs : List Item
  outputs : List Item
  /-- The uniforms of each parameter. -/
  parameters : List (List BoundUniform)

namespace Interface

def nameItems (supply : Supply) (slots : List Slot) : List Item × Supply :=
  let (named, supply) := supply.freshAll Slot.name slots
  (named.map fun (ident, slot) => ⟨slot.name, ident, slot.ty⟩, supply)

def nameUniforms (supply : Supply) (uniforms : List Uniform) : List BoundUniform × Supply :=
  let (named, supply) := supply.freshAll Uniform.name uniforms
  (named.map fun (ident, uniform) => ⟨ident, uniform⟩, supply)

def nameParameters (supply : Supply) :
    List (List Uniform) → List (List BoundUniform) × Supply
  | [] => ([], supply)
  | uniforms :: rest =>
      let (bound, supply) := nameUniforms supply uniforms
      let (rest, supply) := nameParameters supply rest
      (bound :: rest, supply)

/-- Names inputs, then outputs, then the uniforms of each parameter. -/
def assign (p : Program) (s : Shader) (supply : Supply) : Except Fault (Interface × Supply) := do
  let uniforms ← s.parameters.mapM fun q => p.flatten q.name q.ty
  let (inputs, supply) := nameItems supply s.inputs
  let (outputs, supply) := nameItems supply (s.outputs.map Output.toSlot)
  let (parameters, supply) := nameParameters supply uniforms
  return (⟨inputs, outputs, parameters⟩, supply)

def ofShader (p : Program) (s : Shader) (nativeNames : List String) : Except Fault Interface :=
  (assign p s (Supply.forShader nativeNames)).map Prod.fst

def uniforms (i : Interface) : List BoundUniform := i.parameters.flatten

end Interface

end ShaderDialects
