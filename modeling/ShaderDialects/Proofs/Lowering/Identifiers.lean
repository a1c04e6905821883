import ShaderDialects.Builtin.Standard
import ShaderDialects.Proofs.Identifier.Interface
import ShaderDialects.Proofs.Lowering.Shader

namespace ShaderDialects

namespace Dialect

namespace DeclKind

def paramNames : DeclKind → List String
  | function params _ _ => params.map Variable.name
  | _ => []

def localNames : DeclKind → List String
  | function _ _ body => Stmt.localNamesOf body
  | _ => []

def fields : DeclKind → List Variable
  | struct fields => fields
  | _ => []

structure FieldsNamed (k : DeclKind) : Prop where
  nodup : (k.fields.map Variable.name).Nodup
  avoid : ∀ n ∈ k.fields.map Variable.name, n ∉ Identifier.reserved

end DeclKind

/-- The identifiers that a declaration takes from the supply of its shader. -/
def Decl.idents (d : Decl) : List String :=
  match d.origin with
  | .emulation _ => [d.name]
  | _ => d.name :: (d.kind.paramNames ++ d.kind.localNames)

/-- Everything that is named in a shader, up to the insides of emulations and the members of
structs. -/
def Shader.idents (s : Shader) : List String :=
  s.inputs.map InterfaceVar.name ++ s.outputs.map InterfaceVar.name ++
    s.uniforms.map UniformVar.name ++ s.decls.flatMap Decl.idents ++
    Stmt.localNamesOf s.main.statements

end Dialect

namespace Lowering

open Dialect (Decl DeclKind Stmt Variable)
open Identifier (Supply)

structure Progress.Named (supply : Supply) (s : Progress) : Prop where
  gives : supply.Gives (s.decls.flatMap Decl.idents) s.supply
  fields : ∀ d ∈ s.decls, d.kind.FieldsNamed

variable {g : Setting} {s s' : Progress} {supply : Supply}

theorem Progress.Named.snoc (N : s.Named supply) {d : Decl} (hd : s'.decls = s.decls ++ [d])
    (hg : s.supply.Gives d.idents s'.supply) (hf : d.kind.FieldsNamed) : s'.Named supply := by
  constructor
  · rw [hd, List.flatMap_append, List.flatMap_singleton]
    exact N.gives.append hg
  · rw [hd]
    intro d' hd'
    rcases List.mem_append.mp hd' with hd' | hd'
    · exact N.fields d' hd'
    · exact List.mem_singleton.mp hd' ▸ hf

theorem declareEmulation_named (N : s.Named supply) (i : Nat) (t : Term) (symbol : String)
    (body : Emulation.Body) : (Setting.declareEmulation s i t symbol body).Named supply := by
  cases body with
  | function params result body =>
      exact N.snoc rfl (.fresh (t.name ++ "_emulated") .nil) ⟨List.nodup_nil, nofun⟩
  | constant leaf value =>
      exact N.snoc rfl (.fresh (t.name ++ "_emulated") .nil) ⟨List.nodup_nil, nofun⟩

theorem Declares.named {d : DeclId} (h : Declares g s d s') (N : s.Named supply) :
    s'.Named supply := by
  cases h with
  | @record i r tys hr ht =>
      have hlen := (Program.length_fieldNames_of_record hr).trans ht.length_eq
      refine N.snoc rfl (.fresh r.name .nil) ⟨?_, ?_⟩
      · rw [DeclKind.fields, map_name_zipWith hlen]
        exact Program.nodup_fieldNames g.program i
      · rw [DeclKind.fields, map_name_zipWith hlen]
        exact Program.fieldNames_not_reserved g.program i
  | @routine i t r tys rt ss σ ht hr hp hres hb =>
      refine N.snoc rfl (.fresh t.name ?_) ⟨List.nodup_nil, nofun⟩
      have hlen := (length_routineScope s t r).trans hp.length_eq
      rw [DeclKind.paramNames, map_name_zipWith hlen]
      exact (gives_routineScope s t r).append hb.gives
  | native => exact ⟨N.gives, N.fields⟩
  | @emulation i t symbol signature e => exact declareEmulation_named N i t symbol (e.build signature)

theorem named_of_declareAll {closure : Closure} (h : g.declareAll supply closure = .ok s) :
    s.Named supply :=
  declareAll_induct (motive := fun _ s => s.Named supply) h ⟨.nil, nofun⟩
    fun _ _ _ _ _ _ N hd => hd.named N

section Lower

variable {p : Program} {s : Shader} {closure : Closure} {v : Version} {table : Table}
  {d : Dialect.Shader}

/-- What is named in a lowered shader, together with outputs for which nothing is declared, is what
the supply of the shader gives. -/
theorem gives_lower (h : lower p s closure v table = .ok d) :
    ∃ names supply, d.idents.Sublist names ∧ names.length ≤ d.idents.length + s.outputs.length ∧
      (Supply.forShader table.nativeNames).Gives names supply := by
  obtain ⟨i, supply, hi, progress, hp, hm, P, -, -, hd⟩ := lower_eq_ok.mp h
  obtain ⟨supply', hg⟩ := gives_lowerMain hm
  have A := Interface.assigned_of_assign hi
  have hdecls := hd ▸ (named_of_declareAll hp).gives
  refine ⟨_, supply', ?_, ?_, ((Interface.gives_of_assign hi).append hdecls).append hg⟩
  all_goals rw [Dialect.Shader.idents, inputVars_names P.inputs A.inputs, P.uniform_names]
  · have hout := outputVars_names P.outputs A.outputs
    refine List.Sublist.append_right (List.Sublist.append_right ?_ _) _
    exact List.Sublist.append_right (List.Sublist.append_left hout _) _
  · simp only [Interface.idents, List.length_append, List.length_map, A.outputs]
    omega

/-- No two identifiers of a lowered shader are alike, and each that is not a temporary avoids the
words of the language, its builtin functions and what the table calls natively. A temporary is
counted by 32 bits where there are no more than `2 ^ 32` identifiers and outputs. The members of
each struct are told apart, and none is a word of the language. -/
theorem lower_idents_distinct (h : lower p s closure v table = .ok d) :
    d.idents.Nodup ∧
      (∀ n ∈ d.idents, (∃ t : Supply, n = t.temporary.1 ∧
          t.temporaries < d.idents.length + s.outputs.length) ∨
        n ∉ Identifier.reserved ∧ n ∉ Identifier.builtinFunctions ∧ n ∉ table.nativeNames) ∧
      ∀ decl ∈ d.decls, decl.kind.FieldsNamed := by
  obtain ⟨names, supply, hsub, hlen, hg⟩ := gives_lower h
  refine ⟨hsub.nodup hg.nodup, fun n hn => ?_, ?_⟩
  · rcases hg.avoids n (hsub.subset hn) with ⟨t, ht, hlt⟩ | hu
    · have hlt : t.temporaries < names.length := by simpa [Supply.forShader] using hlt
      exact .inl ⟨t, ht, Nat.lt_of_lt_of_le hlt hlen⟩
    · refine .inr ?_
      simpa [Supply.forShader, not_or, and_assoc] using hu
  · obtain ⟨i, supply, -, progress, hp, -, -, -, -, hd⟩ := lower_eq_ok.mp h
    rw [hd]
    exact (named_of_declareAll hp).fields

end Lower

namespace Crowded

/-! Names meet all over: with words of the language, with builtin functions and with each other. -/

abbrev float : Ty := .leaf .float

abbrev vec4 : Ty := .leaf .vec4

def program : Program where
  records := [⟨"light", [⟨"float", float⟩, ⟨"_float", float⟩], {}⟩]
  terms := [
    ⟨"curve", .external "tanh" (.function [.float] .float), {}⟩,
    ⟨"curves", .external "tanh" (.function [.vec4] .vec4), {}⟩,
    ⟨"sin", .function [⟨0, "light", .record 0⟩] float (.field ⟨float, {}⟩ (.bound ⟨.record 0, {}⟩ 0) 1),
      {}⟩]

def lit : Expr := .construct ⟨.record 0, {}⟩ 0 [.input ⟨float, {}⟩ 0, .input ⟨float, {}⟩ 0]

def shader : Shader where
  name := "crowded"
  stage := .vertex
  inputs := [⟨"height", float, {}⟩, ⟨"place", vec4, {}⟩]
  outputs := [⟨⟨"height", float, {}⟩, .varying⟩, ⟨⟨"place", vec4, {}⟩, .position⟩]
  steps := [.bind ⟨0, "light", float⟩ (.apply ⟨float, {}⟩ 2
    [.cond ⟨.record 0, {}⟩ (.literal ⟨.leaf .bool, {}⟩ (.bool true)) lit lit])]
  assignments := [⟨0, .apply ⟨float, {}⟩ 0 [.bound ⟨float, {}⟩ 0]⟩,
    ⟨1, .apply ⟨vec4, {}⟩ 1 [.input ⟨vec4, {}⟩ 1]⟩]

def closure : Closure := .placed [.record 0, .term 0, .term 1, .term 2]

def bent : Shader where
  name := "bent"
  stage := .vertex
  inputs := [⟨"height", float, {}⟩, ⟨"place", vec4, {}⟩]
  outputs := [⟨⟨"shade", float, {}⟩, .varying⟩, ⟨⟨"position", vec4, {}⟩, .position⟩]
  assignments := [⟨0, .apply ⟨float, {}⟩ 0 [.input ⟨float, {}⟩ 0]⟩,
    ⟨1, .apply ⟨vec4, {}⟩ 1 [.input ⟨vec4, {}⟩ 1]⟩]

end Crowded

open Crowded in
theorem lower_idents_distinct_crowded :
    ∃ d, lower program shader closure (.full .v110) .standard = .ok d ∧ d.idents.Nodup ∧
      (∀ n ∈ d.idents, (∃ t : Supply, n = t.temporary.1 ∧
          t.temporaries < d.idents.length + shader.outputs.length) ∨
        n ∉ Identifier.reserved ∧ n ∉ Identifier.builtinFunctions ∧
          n ∉ Table.standard.nativeNames) ∧
      ∀ decl ∈ d.decls, decl.kind.FieldsNamed := by
  obtain ⟨d, hd⟩ : ∃ d, lower program shader closure (.full .v110) .standard = .ok d :=
    Except.exists_eq_ok_of_isOk (by decide +kernel)
  exact ⟨d, hd, lower_idents_distinct hd⟩

open Crowded in
/-- Two emulations of one symbol bring a local of the same name each. -/
theorem lower_repeats_emulated_local :
    Closure.ofShader program bent = .ok (.placed [.term 0, .term 1]) ∧
      ∃ d, lower program bent (.placed [.term 0, .term 1]) (.full .v110) .standard = .ok d ∧
        ¬ (d.decls.flatMap fun decl => decl.kind.localNames).Nodup := by
  have hlocals :
      (lower program bent (.placed [.term 0, .term 1]) (.full .v110) .standard).toOption.map
      (fun d => d.decls.flatMap fun decl => decl.kind.localNames) = some ["e", "e"] := by
    decide +kernel
  obtain ⟨d, hd, hnames⟩ := Except.exists_eq_ok_of_toOption_map hlocals
  exact ⟨rfl, d, hd, by rw [hnames]; decide⟩

end Lowering

end ShaderDialects
