import ShaderDialects.Interface
import ShaderDialects.Proofs.Except
import ShaderDialects.Proofs.Identifier.Fresh

namespace ShaderDialects

open Identifier (Supply)

namespace Interface

def idents (i : Interface) : List String :=
  i.inputs.map Item.ident ++ i.outputs.map Item.ident ++ i.uniforms.map BoundUniform.ident

def labels (s : Shader) (uss : List (List Uniform)) : List String :=
  s.inputs.map Slot.name ++ (s.outputs.map Output.toSlot).map Slot.name ++
    uss.flatten.map Uniform.name

def named (supply : Supply) (s : Shader) (uss : List (List Uniform)) : Interface × Supply :=
  let (inputs, supply) := nameItems supply s.inputs
  let (outputs, supply) := nameItems supply (s.outputs.map Output.toSlot)
  let (parameters, supply) := nameParameters supply uss
  (⟨inputs, outputs, parameters⟩, supply)

variable {supply : Supply}

theorem nameItems_idents (slots : List Slot) :
    (nameItems supply slots).1.map Item.ident = supply.names id (slots.map Slot.name) := by
  rw [← Supply.names_map, Supply.names]
  simp [nameItems, Function.comp_def]

theorem nameItems_length (slots : List Slot) :
    (nameItems supply slots).1.length = slots.length := by
  simpa using congrArg List.length (nameItems_idents slots)

theorem nameItems_supply (slots : List Slot) :
    (nameItems supply slots).2 = (supply.freshAll id (slots.map Slot.name)).2 := by
  rw [← Supply.freshAll_map]
  rfl

theorem nameUniforms_idents (us : List Uniform) :
    (nameUniforms supply us).1.map BoundUniform.ident = supply.names id (us.map Uniform.name) := by
  rw [← Supply.names_map, Supply.names]
  simp [nameUniforms, Function.comp_def]

theorem nameUniforms_uniforms (us : List Uniform) :
    (nameUniforms supply us).1.map BoundUniform.uniform = us := by
  have h : (supply.freshAll Uniform.name us).1.map Prod.snd = us := by
    rw [Supply.freshAll_fst, List.map_snd_zip]
    simp
  simpa [nameUniforms, Function.comp_def] using h

theorem nameUniforms_supply (us : List Uniform) :
    (nameUniforms supply us).2 = (supply.freshAll id (us.map Uniform.name)).2 := by
  rw [← Supply.freshAll_map]
  rfl

theorem nameParameters_idents (uss : List (List Uniform)) :
    (nameParameters supply uss).1.flatten.map BoundUniform.ident
      = supply.names id (uss.flatten.map Uniform.name) := by
  induction uss generalizing supply with
  | nil => rfl
  | cons us uss ih =>
      rw [nameParameters, List.flatten_cons, List.map_append, nameUniforms_idents, ih,
        List.flatten_cons, List.map_append, Supply.names_append, nameUniforms_supply]

theorem nameParameters_uniforms (uss : List (List Uniform)) :
    (nameParameters supply uss).1.map (List.map BoundUniform.uniform) = uss := by
  induction uss generalizing supply with
  | nil => rfl
  | cons us uss ih => rw [nameParameters, List.map_cons, nameUniforms_uniforms, ih]

theorem nameParameters_supply (uss : List (List Uniform)) :
    (nameParameters supply uss).2 = (supply.freshAll id (uss.flatten.map Uniform.name)).2 := by
  induction uss generalizing supply with
  | nil => rfl
  | cons us uss ih =>
      rw [nameParameters, ih, nameUniforms_supply, List.flatten_cons, List.map_append,
        Supply.freshAll_append]

variable {p : Program} {s : Shader} {uss : List (List Uniform)}

theorem named_idents : (named supply s uss).1.idents = supply.names id (labels s uss) := by
  rw [named, idents, uniforms, nameItems_idents, nameItems_idents, nameParameters_idents, labels,
    Supply.names_append, Supply.names_append, Supply.freshAll_append, nameItems_supply,
    nameItems_supply]

theorem named_supply : (named supply s uss).2 = (supply.freshAll id (labels s uss)).2 := by
  rw [named, nameParameters_supply, nameItems_supply, nameItems_supply, labels,
    Supply.freshAll_append, Supply.freshAll_append]

theorem assign_eq_ok {r : Interface × Supply} :
    assign p s supply = .ok r ↔
      ∃ uss, List.Forall₂ (fun q us => p.flatten q.name q.ty = .ok us) s.parameters uss ∧
        named supply s uss = r := by
  rw [assign, Except.bind_eq_ok]
  simp only [Except.mapM_eq_ok, named]
  simp [Except.pure_eq_ok]

theorem gives_of_assign {i : Interface} {supply' : Supply}
    (h : assign p s supply = .ok (i, supply')) : supply.Gives i.idents supply' := by
  obtain ⟨uss, _, h⟩ := assign_eq_ok.mp h
  have hi : (named supply s uss).1 = i := by rw [h]
  have hs : (named supply s uss).2 = supply' := by rw [h]
  rw [← hi, ← hs, named_idents, named_supply]
  exact Supply.gives_freshAll id (labels s uss)

structure Assigned (p : Program) (s : Shader) (i : Interface) (supply : Supply) : Prop where
  inputs : i.inputs.length = s.inputs.length
  outputs : i.outputs.length = s.outputs.length
  parameters : List.Forall₂
    (fun q us => p.flatten q.name q.ty = .ok (us.map BoundUniform.uniform)) s.parameters i.parameters
  nodup : i.idents.Nodup
  known : ∀ n ∈ i.idents, supply.Knows n

theorem assigned_of_assign {i : Interface} {supply' : Supply}
    (h : assign p s supply = .ok (i, supply')) : Assigned p s i supply' := by
  have hg := gives_of_assign h
  obtain ⟨uss, hf, h⟩ := assign_eq_ok.mp h
  obtain rfl : (named supply s uss).1 = i := by rw [h]
  refine ⟨?_, ?_, ?_, hg.nodup, hg.known⟩
  · exact nameItems_length s.inputs
  · exact (nameItems_length _).trans (by simp)
  · have hu : (named supply s uss).1.parameters.map (List.map BoundUniform.uniform) = uss :=
      nameParameters_uniforms uss
    rwa [← hu, List.forall₂_map_right_iff] at hf

end Interface

end ShaderDialects
