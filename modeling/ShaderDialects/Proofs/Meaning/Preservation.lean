import ShaderDialects.Proofs.Meaning.Declarations
import ShaderDialects.Proofs.Meaning.Uniforms

namespace ShaderDialects.Lowering

open Dialect (Env Main OutputWrite Stmt UniformVar)
open Identifier (Supply)
open Value (HasTys)
open Shader (assignedValues discardValues finalLocals)

variable {α : Type}

section Body

variable {g : Setting} {c : Context} {σ σ' : Scope} {ss : List Stmt}

theorem LowersSteps.le {steps : List Step} {xs : List Dialect.Expr}
    (h : LowersSteps g c steps σ xs ss σ') : σ.Le σ' :=
  fun _ => h.gives.knows

theorem LowersAssignments.le {as : List Assignment} {ws : List OutputWrite}
    (h : LowersAssignments g c as σ ws ss σ') : σ.Le σ' :=
  fun _ => h.gives.knows

theorem evalLeaf_eq {w : World α} {m : Meaning α} {locals : List (Nat × Val α)} {env : Env α}
    {e : Expr} {x : Dialect.Expr}
    (h : x.eval w.interpretation env = (e.eval w m locals).map w.image) :
    x.evalLeaf w.interpretation env = e.evalLeaf w m locals := by
  have himage : Value.leaf? ∘ w.image = Value.leaf? := funext w.leaf?_image
  rw [Dialect.Expr.evalLeaf, h, Expr.evalLeaf, Option.bind_map, himage]

variable {w : World α} {m : Meaning α} {base : Supply} {globals env : Env α} {ds : List DeclId}
  {Γ : List (Nat × Ty)} {locals : List (Nat × Val α)}
  (R : Realized c w m base globals) (hw : w.Supplies c.shader) (hm : m.Sound w.program ds)
include R hw hm

theorem LowersSteps.simulated {steps : List Step} {xs : List Dialect.Expr}
    (h : LowersSteps g c steps σ xs ss σ') (hv : c.shader.ValidSteps w.program ds Γ steps)
    (M : Matches w base globals σ Γ locals env) :
    Advances w env σ ss σ'
      (finalLocals w m locals steps = none ∨ discardValues w m locals steps = none) fun env' =>
        ∃ locals', finalLocals w m locals steps = some locals' ∧
          Matches w base globals σ' (steps.foldl Step.extend Γ) locals' env' ∧
          Stable σ' env' (fun env => xs.mapM (Dialect.Expr.evalLeaf w.interpretation env))
            (discardValues w m locals steps) := by
  induction h generalizing Γ locals env with
  | nil => exact .inr ⟨[], rfl, Grows.nil _ _, locals, rfl, M, fun _ _ => rfl⟩
  | @bind b value steps xs σ σ₁ σ₂ ss₁ ss₂ hd hs ih =>
      have hl : σ.Le σ₁ := fun n => hd.knows
      have hsim := hd.simulated R hw hm ⟨hv.1, hv.2.1⟩ trivial M
      rw [Task.Simulated] at hsim
      refine hsim.append (fun h => .inl (by simp [finalLocals, h])) hl hs.le ?_
      rintro news hg ⟨v, name, hval, hname, hk, he⟩
      have hty : v.HasTy w.program b.ty :=
        hv.2.1 ▸ Expr.eval_hasTy hw hv.1.typed (hm.mono hv.1.mentioned) M.typedLocals hval
      have M₁ := M.extend hg hl hty hname hk he fun id ty hid h => ?_
      · simpa [finalLocals, discardValues, hval, Step.extend] using ih hv.2.2 M₁
      · refine hd.lookup_locals fun hmem => ?_
        rcases List.mem_cons.mp hmem with hmem | hmem
        · exact hid hmem
        · simp [hv.1.unbound id hmem] at h
  | @discard condition span steps x xs σ σ₁ σ₂ ss₁ ss₂ _ hc hs ih =>
      have hl : σ.Le σ₁ := fun n => hc.knows
      have hsim := hc.simulated R hw hm hv.1 trivial M
      rw [Task.Simulated] at hsim
      refine hsim.append (fun h => .inr (by simp [discardValues, Expr.evalLeaf, h])) hl hs.le ?_
      intro news hg hx
      have M₁ := M.grow hg hl fun id ty h =>
        hc.lookup_locals fun hid => by simp [hv.1.unbound id hid] at h
      refine (ih hv.2.2 M₁).mono ?_ ?_
      · rintro (h | h)
        · exact .inl (by simp [finalLocals, h])
        · exact .inr (by simp [discardValues, h])
      · rintro news₁ hg₁ ⟨locals', hfinal, M₂, hxs⟩
        refine ⟨locals', hfinal, M₂, fun more hmore => ?_⟩
        have hhead := evalLeaf_eq (hx.grow hg₁ hs.le more hmore)
        have htail : xs.mapM (Dialect.Expr.evalLeaf w.interpretation _) = _ := hxs more hmore
        simp only [Option.mapM_cons, hhead, htail, discardValues]

theorem LowersAssignments.simulated {as : List Assignment} {ws : List OutputWrite}
    (h : LowersAssignments g c as σ ws ss σ')
    (hv : ∀ a ∈ as, a.value.Valid w.program c.shader ds Γ)
    (M : Matches w base globals σ Γ locals env) :
    Advances w env σ ss σ' (assignedValues w m locals as = none) fun env' =>
      Stable σ' env' (fun env => ws.mapM fun o => o.value.evalLeaf w.interpretation env)
        (assignedValues w m locals as) := by
  induction h generalizing env with
  | nil => exact .inr ⟨[], rfl, Grows.nil _ _, fun _ _ => rfl⟩
  | @cons a as output ident leaf sink x ws σ σ₁ σ₂ ss₁ ss₂ _ _ hx _ hs ih =>
      have hva := hv a (by simp)
      have hl : σ.Le σ₁ := fun n => hx.knows
      have hsim := hx.simulated R hw hm hva trivial M
      rw [Task.Simulated] at hsim
      refine hsim.append (fun h => ?_) hl hs.le fun news hg hx' => ?_
      · simp [assignedValues, Expr.evalLeaf, h]
      · have M₁ := M.grow hg hl fun id ty h =>
          hx.lookup_locals fun hid => by simp [hva.unbound id hid] at h
        refine (ih (fun a ha => hv a (by simp [ha])) M₁).mono (fun h => ?_) ?_
        · rw [assignedValues] at h
          simp [assignedValues, h]
        · intro news₁ hg₁ hws more hmore
          have hhead := evalLeaf_eq (hx'.grow hg₁ hs.le more hmore)
          have htail : (ws.mapM fun o => o.value.evalLeaf w.interpretation
              (more ++ (news₁ ++ (news ++ env)))) = assignedValues w m locals as := hws more hmore
          rw [assignedValues] at htail
          simp only [Option.mapM_cons, hhead, htail, assignedValues]

end Body

section Shader

variable {g : Setting} {w : World α} {s : Progress} {globals : Env α} {order : List DeclId}

theorem run_main (R : Realized (g.context s) w w.meaning s.supply globals)
    (hw : w.Supplies g.shader) (hm : w.meaning.Sound w.program order)
    (hsteps : g.shader.ValidSteps w.program order [] g.shader.steps)
    (hassign : ∀ a ∈ g.shader.assignments, a.value.Valid w.program g.shader order g.shader.scope)
    {main : Main} (h : g.lowerMain s = .ok main) :
    main.run w.interpretation globals = g.shader.evaluate w := by
  obtain ⟨ss₁, σ, ss₂, σ', hs, ha, hmain⟩ := lowerMain_parts h
  have M : Matches w s.supply globals ⟨s.supply, []⟩ [] [] globals :=
    ⟨fun _ h => h, fun _ _ => rfl, by simp⟩
  rw [Main.run, hmain, Shader.evaluate]
  rcases hs.simulated R hw hm hsteps M with
    ⟨hx, hstuck⟩ | ⟨news, hx, hg, locals, hfinal, M₁, hdiscards⟩
  · rw [Stmt.execAll_append_of_none _ hx]
    rcases hstuck with h | h <;> simp [h]
  · rw [Stmt.execAll_append_of_next _ hx, hfinal]
    rcases ha.simulated R hw hm hassign M₁ with ⟨hx₁, hstuck⟩ | ⟨news₁, hx₁, hg₁, hwrites⟩
    · simp [hx₁, hstuck]
    · have hds : main.discards.mapM (Dialect.Expr.evalLeaf w.interpretation
          (news₁ ++ (news ++ globals))) = _ := (hdiscards.grow hg₁ ha.le).here
      have hws : (main.outputs.mapM fun o => o.value.evalLeaf w.interpretation
          (news₁ ++ (news ++ globals))) = _ := hwrites.here
      simp [hx₁, hds, hws]

/-- A lowered shader does not get stuck, if its emulations fit what they are called with. -/
theorem evaluate_isSome {closure : Closure} {supply : Supply} (O : Orderly g w closure.order)
    (hd : g.declareAll supply closure = .ok s) {main : Main} (hmain : g.lowerMain s = .ok main)
    (ht : g.shader.Typed w.program)
    (hm : ∀ e ∈ g.shader.exprs, ∀ d ∈ e.mentions, d ∈ closure.order)
    (hf : ∀ i t symbol signature d, .term i ∈ closure.order → w.program.terms[i]? = some t →
      t.kind = .external symbol signature →
      w.table.resolve symbol signature.kind w.version w.stage = .ok d → d.Fits signature) :
    (g.shader.evaluate w).isSome := by
  have htotal : w.meaning.Total w.program closure.order := by
    refine World.total_meaning O.supplies O.linear O.typed fun i t symbol signature hi h hk => ?_
    obtain ⟨d, hres⟩ := resolved_of_declareAll hd hi (O.program ▸ h) hk
    exact ⟨d, O.resolve hres, hf i t symbol signature d hi h hk (O.resolve hres)⟩
  obtain ⟨_, _, _, _, _, hassign, _⟩ := lowerMain_parts hmain
  have hnil : TypedLocals w.program [] ([] : List (Nat × Val α)) := fun id ty h => by simp at h
  obtain ⟨locals, discards, hfinal, hdiscards, hl⟩ :=
    Shader.steps_eq_some O.supplies O.sound htotal ht.1
      (fun step h => hm _ (List.mem_append_left _ (List.mem_map_of_mem h))) hnil
  have hwrite (a : Assignment) (ha : a ∈ g.shader.assignments) :
      ∃ b, a.value.evalLeaf w w.meaning locals = some b := by
    obtain ⟨output, leaf, ho, hleaf⟩ := hassign.leaf ha
    have hty : some output.ty = some a.value.ty := by simpa [ho] using (ht.2 a ha).2
    exact Shader.evalLeaf_eq_some O.supplies O.sound htotal (ht.2 a ha).1
      (hm _ (List.mem_append_right _ (List.mem_map_of_mem ha))) hl
      ((Option.some.inj hty).symm.trans hleaf)
  obtain ⟨writes, hwrites⟩ := Option.exists_mapM_eq_some hwrite
  simp [Shader.evaluate, hfinal, hdiscards, assignedValues, hwrites]

end Shader

/-- Run with each uniform set to the leaf of its parameter at its path, a lowered shader gives the
values that the source has for its discard conditions and assignments. The source has them unless
an emulation is of another shape than the external it stands for, or one that the table has brought
along gets stuck. -/
theorem run_lower_eq_evaluate {p : Program} {s : Shader} {closure : Closure} {v : Version}
    {table : Table} {d : Dialect.Shader} (hc : Closure.ofShader p s = .ok closure)
    (ht : WellTyped p s closure) (hu : UniqueBinders p s closure)
    (hd : lower p s closure v table = .ok d) (I : Interpretation α) {inputs : List α}
    {params : List (Val α)} (hin : inputs.length = s.inputs.length)
    (hp : HasTys p params (s.parameters.map Slot.ty)) :
    ∃ i us, Interface.ofShader p s table.nativeNames = .ok i ∧
      d.uniforms.map UniformVar.name = i.uniforms.map BoundUniform.ident ∧
      i.uniformValues params = some us ∧
      (∀ drawn, s.evaluate ⟨I, p, table, v, s.stage, inputs, params⟩ = some drawn →
        d.run I inputs us = some drawn) ∧
      ((∀ i t symbol signature decision, .term i ∈ closure.order → p.terms[i]? = some t →
          t.kind = .external symbol signature →
          table.resolve symbol signature.kind v s.stage = .ok decision → decision.Fits signature) →
        ∃ drawn, s.evaluate ⟨I, p, table, v, s.stage, inputs, params⟩ = some drawn) := by
  obtain ⟨hlinear, _⟩ := Closure.ofShader_spec hc
  obtain ⟨i, supply, hi, progress, hdecls, hmain, P, _, _, hd⟩ := lower_eq_ok.mp hd
  have A := Interface.assigned_of_assign hi
  obtain ⟨us, hus⟩ := exists_uniformValues A hp
  let w : World α := ⟨I, p, table, v, s.stage, inputs, params⟩
  have O : Orderly ⟨p, s, v, table, i⟩ w closure.order :=
    ⟨rfl, rfl, rfl, rfl, ⟨hin, P.leaf_inputs A.inputs, hp⟩, hlinear, ht.terms, hu.terms⟩
  have hm := Closure.mentions_subset_of_ofShader hc
  obtain ⟨hsteps, _⟩ := Shader.validSteps_of_typed ht.shader.1 hu.shader (by simp)
    fun step h => hm _ (List.mem_append_left _ (List.mem_map_of_mem h))
  have hassign (a : Assignment) (ha : a ∈ s.assignments) : a.value.Valid p s closure.order s.scope :=
    Shader.validAssignment ha ht.shader hu.shader hm
  obtain ⟨low, E⟩ :=
    established_declareAll O (realized_baseEnv A hp P hin hus w rfl rfl rfl) hdecls
  refine ⟨i, us, ?_, ?_, hus, fun drawn hdrawn => ?_, fun hf => ?_⟩
  · rw [Interface.ofShader, hi]
    rfl
  · simp [P.uniforms, Setting.uniformVars]
  · have hrun : d.main.run I low = s.evaluate w :=
      run_main E.realized O.supplies O.sound hsteps hassign hmain
    rw [Dialect.Shader.run, hd]
    exact Main.run_below I E.below (hrun.trans hdrawn)
  · exact Option.isSome_iff_exists.mp (evaluate_isSome O hdecls hmain ht.shader hm hf)

/-! A fragment shader that is dimmed by a light: its parameter is a record in a record, and it
calls a function that branches, an operator, and an emulation that the table has brought along. -/
namespace Dimmed

def float : Ty := .leaf .float

def program : Program where
  records := [⟨"Tone", [⟨"gain", float⟩], {}⟩,
    ⟨"Light", [⟨"tone", .record 0⟩, ⟨"level", float⟩], {}⟩]
  terms := [
    ⟨"less", .external "lt" (.function [.float, .float] .bool), {}⟩,
    ⟨"round", .external "round" (.function [.float] .float), {}⟩,
    ⟨"strength", .function [⟨0, "light", .record 1⟩] float
      (.cond ⟨float, {}⟩
        (.apply ⟨.leaf .bool, {}⟩ 0
          [.field ⟨float, {}⟩ (.bound ⟨.record 1, {}⟩ 0) 1, .literal ⟨float, {}⟩ (.float ⟨0x3f800000⟩)])
        (.apply ⟨float, {}⟩ 1
          [.field ⟨float, {}⟩ (.field ⟨.record 0, {}⟩ (.bound ⟨.record 1, {}⟩ 0) 0) 0])
        (.field ⟨float, {}⟩ (.bound ⟨.record 1, {}⟩ 0) 1)), {}⟩]

def shader : Shader where
  name := "dimmed"
  stage := .fragment
  inputs := [⟨"shade", float, {}⟩]
  outputs := [⟨⟨"color", float, {}⟩, .attachment 0⟩]
  parameters := [⟨"light", .record 1, {}⟩]
  steps := [
    .bind ⟨0, "strength", float⟩ (.apply ⟨float, {}⟩ 2 [.parameter ⟨.record 1, {}⟩ 0]),
    .discard (.apply ⟨.leaf .bool, {}⟩ 0 [.bound ⟨float, {}⟩ 0, .input ⟨float, {}⟩ 0]) {}]
  assignments := [⟨0, .bound ⟨float, {}⟩ 0⟩]

def closure : Closure := .placed [.record 0, .record 1, .term 0, .term 1, .term 2]

/-- The local of the emulation waits for its value until a branch or the block in the other gives
it one. -/
def raised (signature : Signature) : Emulation.Body :=
  .function [("x", Emulation.paramLeaf signature 0)] signature.result
    [.declare "y" (.leaf .float) none,
     .cond (.binary .less (.var "x") Emulation.one) [.assign "y" (.var "x")]
       [.block [.declare "z" (.leaf .float) (some Emulation.one),
         .assign "y" (.binary .add (.var "x") (.var "z"))]],
     .return (.var "y")]

def table : Table :=
  TableBuilder.build ⟨[
    ⟨.function, "lt", [{ versions := .universal, decision := .native (.binary .less) }]⟩,
    ⟨.function, "round",
      [{ versions := .universal, decision := .emulated (.custom "round" "raised" raised) }]⟩]⟩

/-- Numbers, of which zero is false; all that is called adds its arguments. -/
def interpretation : Interpretation Nat where
  literal _ := 1
  truth a := a ≠ 0
  swizzle a _ := a
  index a _ := a
  native form args :=
    match form, args with
    | .binary .less, [a, b] => if a < b then 1 else 0
    | _, args => args.foldl (· + ·) 0

def version : Version := .embedded .v100

def light : Val Nat := .record 1 [.record 0 [.leaf 5], .leaf 0]

end Dimmed

open Dimmed in
theorem run_lower_dimmed :
    Closure.ofShader program shader = .ok closure ∧ WellTyped program shader closure ∧
      UniqueBinders program shader closure ∧
      HasTys program [light] (shader.parameters.map Slot.ty) ∧
      ∃ d i us, lower program shader closure version table = .ok d ∧
        Interface.ofShader program shader table.nativeNames = .ok i ∧
        d.uniforms.map UniformVar.name = i.uniforms.map BoundUniform.ident ∧
        i.uniformValues [light] = some us ∧
        d.run interpretation [9] us = some ⟨[1], [6]⟩ := by
  have hc : Closure.ofShader program shader = .ok closure := rfl
  have ht : WellTyped program shader closure := by decide
  have hu : UniqueBinders program shader closure := by decide
  have hin : [9].length = shader.inputs.length := rfl
  have hp : HasTys program [light] (shader.parameters.map Slot.ty) := by
    simp [HasTys, Value.HasTy, Program.fieldTys?, light, shader, program, float]
  obtain ⟨d, hd⟩ : ∃ d, lower program shader closure version table = .ok d :=
    Except.exists_eq_ok_of_isOk (by decide +kernel)
  obtain ⟨i, us, hi, hnames, hus, hrun, _⟩ :=
    run_lower_eq_evaluate hc ht hu hd interpretation hin hp
  refine ⟨hc, ht, hu, hp, d, i, us, hd, hi, hnames, hus, hrun _ (by decide)⟩

end ShaderDialects.Lowering
