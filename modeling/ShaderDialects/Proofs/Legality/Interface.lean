import ShaderDialects.Proofs.Identifier.Interface
import ShaderDialects.Proofs.Legality.Construct
import ShaderDialects.Proofs.Legality.Lowered
import ShaderDialects.Proofs.Lowering.Shader
import ShaderDialects.Proofs.Source.Flattening

namespace ShaderDialects.Lowering

open Dialect (InterfaceVar)
open Legality

variable {g : Setting}

theorem variableRule_eq_none {v : Version} {interpolated : Bool} {x : InterfaceVar} :
    variableRule v interpolated x = none ↔
      interfaceRule x.leaf = none ∧ leafRule x.leaf v = none ∧
        storageRule v interpolated x.leaf x.storage = none := by
  simp [variableRule, Option.orElse_eq_orElse, Option.orElse_eq_or, Option.or_eq_none_iff]

theorem isLegacy_eq (v : Version) : v.isLegacy = !v.isSince .v300 .v130 := by
  have h : ∀ v ∈ Version.all, v.isLegacy = !v.isSince .v300 .v130 := by decide
  exact h v v.mem_all

theorem isSince_of_integerRule {t : Leaf} {v : Version} (h : integerRule t v = none)
    (hu : t.isUnsigned = true) : v.isSince .v300 .v130 = true := by
  have hi : t.isInteger = true := by
    rw [Leaf.isInteger, Bool.or_eq_true]
    exact .inr hu
  simpa [integerRule, hi, isLegacy_eq] using h

theorem storageRule_inputStorage {t : Leaf} :
    storageRule g.version (g.shader.stage = .fragment) t (g.inputStorage t) = none ↔
      integerRule t g.version = none := by
  rw [Setting.inputStorage]
  cases hl : g.version.isLegacy with
  | true => cases g.shader.stage <;> simp [storageRule, hl]
  | false => cases g.shader.stage <;> simp [storageRule, hl, integerRule]

theorem variableRule_input {q : Slot} {ident : String} {x : InterfaceVar}
    (h : g.inputVar q ident = .ok x) :
    variableRule g.version (g.shader.stage = .fragment) x = none ↔
      InputAllowed g.version q ∧ leafRule x.leaf g.version = none := by
  obtain ⟨t, ht, rfl⟩ := inputVar_eq_ok.mp h
  rw [variableRule_eq_none, storageRule_inputStorage, InputAllowed]
  constructor
  · rintro ⟨hi, hl, hs⟩
    exact ⟨⟨t, ht, hi, hs⟩, hl⟩
  · rintro ⟨⟨t', ht', hi, hs⟩, hl⟩
    cases ht.symm.trans ht'
    exact ⟨hi, hl, hs⟩

theorem attachment_eq_zero {s : Shader} {o : Output} {n : Nat} (ho : o ∈ s.outputs)
    (hn : o.target = .attachment n) (hs : s.attachments = [0]) : n = 0 := by
  have hmem : n ∈ s.attachments := List.mem_filterMap.mpr ⟨o, ho, by rw [hn]⟩
  simpa [hs] using hmem

theorem interfaceRule_of_color {n : Nat} {t : Leaf} {v : Version} (hv : v.isLegacy = true)
    (h : attachmentRule n t v = none) : interfaceRule t = none := by
  have ht : t = .vec4 := by
    by_contra hne
    simp [attachmentRule, hv, hne] at h
    split at h <;> cases h
  subst ht
  rfl

theorem attachmentRule_of_not_legacy {n : Nat} {t : Leaf} {v : Version} (h : v.isLegacy = false) :
    attachmentRule n t v = none := by
  have hv : v ≠ .embedded .v100 := by
    rintro rfl
    cases h
  simp [attachmentRule, h, hv]

theorem exists_output {supply : Identifier.Supply}
    (I : Interface.Assigned g.program g.shader g.interface supply) {k : Nat} {o : Output}
    (hk : g.shader.outputs[k]? = some o) : ∃ ident, g.outputs[k]? = some (o, ident) := by
  have hlt : k < g.interface.outputs.length := I.outputs ▸ (List.getElem?_eq_some_iff.mp hk).1
  exact ⟨g.interface.outputs[k].ident, List.getElem?_zip_eq_some.mpr ⟨hk, by simp [hlt]⟩⟩

section Output

variable {o : Output} {ident : String} {t : Leaf} {sink : Dialect.Sink} {x : InterfaceVar}

theorem outputVar?_of_var (ht : o.ty = .leaf t) (hk : g.sink o ident = .ok (.var ident)) :
    g.outputVar? o ident = .ok (some x) ↔
      ∃ storage, g.outputStorage? t o.target = some storage ∧ ⟨ident, t, storage⟩ = x := by
  rw [Setting.outputVar?, hk]
  simp [ht, bind, Except.bind, Except.pure_eq_ok]

theorem outputVar?_of_builtin (hk : g.sink o ident = .ok sink) (h : ∀ name, sink ≠ .var name) :
    g.outputVar? o ident ≠ .ok (some x) := by
  intro hx
  obtain ⟨sink', hk', ⟨rfl, _⟩ | ⟨_, hx⟩⟩ := outputVar?_eq_ok.mp hx
  · cases hk.symm.trans hk'
    exact h ident rfl
  · cases hx

theorem leaf_of_outputVar? (ht : o.ty = .leaf t) (h : g.outputVar? o ident = .ok (some x)) :
    x.leaf = t := by
  obtain ⟨_, _, ⟨rfl, leaf, hleaf, hx⟩ | ⟨_, hx⟩⟩ := outputVar?_eq_ok.mp h
  · obtain ⟨storage, _, rfl⟩ := Option.map_eq_some_iff.mp hx
    cases ht.symm.trans hleaf
    rfl
  · cases hx

theorem storageRule_varying {v : Version} :
    storageRule v true t (if v.isLegacy then .varying else .output t.isInteger none) = none ↔
      integerRule t v = none := by
  cases h : v.isLegacy <;> simp [storageRule, integerRule, h]

theorem storageRule_attachment {v : Version} {n : Nat} (h : v.isLegacy = false) :
    storageRule v false t (.output false (if v.hasLocations then some n else none)) = none := by
  cases hl : v.hasLocations <;> simp [storageRule, h, hl]

/-- What is said of an output before lowering is said of where it goes and of its variable after.
Only the second asks whether the version has the type. -/
theorem outputAllowed_iff (ho : o ∈ g.shader.outputs) (ht : o.ty = .leaf t)
    (hk : g.sink o ident = .ok sink) :
    OutputAllowed g.shader.stage g.version o ↔
      sinkRule g.version t sink = none ∧ ∀ x, g.outputVar? o ident = .ok (some x) →
        interfaceRule x.leaf = none ∧
          storageRule g.version (g.shader.stage = .vertex) x.leaf x.storage = none := by
  rw [OutputAllowed, ht]
  simp only [Ty.leaf.injEq, exists_eq_left']
  -- A sink that is a builtin has no variable, and one that is a variable no rule of its own.
  have builtin (h : ∀ name, sink ≠ .var name) :
      (sinkRule g.version t sink = none ∧ ∀ x, g.outputVar? o ident = .ok (some x) →
        interfaceRule x.leaf = none ∧
          storageRule g.version (g.shader.stage = .vertex) x.leaf x.storage = none) ↔
        sinkRule g.version t sink = none :=
    and_iff_left fun x hx => absurd hx (outputVar?_of_builtin hk h)
  have own {storage : Dialect.Storage} (hv : sink = .var ident)
      (hg : g.outputStorage? t o.target = some storage) :
      (sinkRule g.version t sink = none ∧ ∀ x, g.outputVar? o ident = .ok (some x) →
        interfaceRule x.leaf = none ∧
          storageRule g.version (g.shader.stage = .vertex) x.leaf x.storage = none) ↔
        interfaceRule t = none ∧
          storageRule g.version (g.shader.stage = .vertex) t storage = none := by
    subst hv
    simp [outputVar?_of_var ht hk, hg, sinkRule]
  have hsink := hk
  rw [Setting.sink] at hsink
  cases hs : g.shader.stage with
  | vertex =>
      simp only [hs] at hsink builtin own ⊢
      cases hg : o.target with
      | varying =>
          simp only [hg] at hsink own ⊢
          cases hsink
          rw [own rfl rfl]
          simp [targetRule, storageRule_varying]
      | position =>
          simp only [hg] at hsink
          cases hsink
          exact (builtin (by simp)).symm
      | attachment n | depth => simp [hg, Setting.malformed] at hsink
  | fragment =>
      simp only [hs] at hsink builtin own ⊢
      cases hg : o.target with
      | attachment n =>
          simp only [hg] at hsink own ⊢
          cases hv : g.version.isLegacy with
          | false =>
              obtain rfl : .var ident = sink := by simpa [hv] using hsink
              rw [own rfl rfl]
              simp [targetRule, attachmentRule_of_not_legacy hv, storageRule_attachment hv]
          | true =>
              have hcolor : targetRule g.version t .fragment (.attachment n) ↔
                  attachmentRule n t g.version = none :=
                and_iff_right_of_imp (interfaceRule_of_color hv)
              rw [hcolor]
              by_cases hone : g.shader.attachments = [0]
              · obtain rfl : .fragColor = sink := by simpa [hv, hone] using hsink
                obtain rfl := attachment_eq_zero ho hg hone
                exact ((builtin (by simp)).trans (by simp [sinkRule, colorSinkRule, hv])).symm
              · obtain rfl : .fragData n = sink := by simpa [hv, hone] using hsink
                exact ((builtin (by simp)).trans (by simp [sinkRule, colorSinkRule, hv])).symm
      | depth =>
          simp only [hg] at hsink
          cases hsink
          exact (builtin (by simp)).symm
      | varying | position => simp [hg, Setting.malformed] at hsink

end Output

theorem forall_uniforms_iff {p : Program} {qs : List Slot} {uss : List (List BoundUniform)}
    (h : List.Forall₂ (fun q us => p.flatten q.name q.ty = .ok (us.map BoundUniform.uniform)) qs uss)
    {P : Uniform → Prop} :
    (∀ us ∈ uss, ∀ u ∈ us, P u.uniform) ↔
      ∀ q ∈ qs, ∃ us, p.flatten q.name q.ty = .ok us ∧ ∀ u ∈ us, P u := by
  induction h with
  | nil => simp
  | cons hq _ ih => simp [hq, ih]

theorem uniformVars_legal {supply : Identifier.Supply}
    (A : Interface.Assigned g.program g.shader g.interface supply) :
    (∀ u ∈ g.uniformVars, leafRule u.leaf g.version = none) ↔
      ∀ q ∈ g.shader.parameters, ∃ us, g.program.flatten q.name q.ty = .ok us ∧
        ∀ u ∈ us, leafRule u.leaf g.version = none := by
  rw [← forall_uniforms_iff A.parameters, Setting.uniformVars, List.forall_mem_map,
    Interface.uniforms]
  simp only [List.mem_flatten]
  constructor
  · intro h us hus u hu
    exact h u ⟨us, hus, hu⟩
  · rintro h u ⟨us, hus, hu⟩
    exact h us hus u hu

theorem tyAllowed_of_flatten {p : Program} {v : Version} {name : String} {ty : Ty}
    {us : List Uniform} (h : p.flatten name ty = .ok us) (hl : ∀ u ∈ us, leafRule u.leaf v = none) :
    TyAllowed v ty := by
  rintro t rfl
  obtain rfl := Program.flattenWithin_leaf.mp h
  exact hl _ (List.mem_singleton_self _)

end ShaderDialects.Lowering
