import ShaderDialects.Proofs.Lowering.Declaration

namespace ShaderDialects

namespace Shader

variable (p : Program) (s : Shader) (ds : List DeclId)

def ValidSteps : List (Nat × Ty) → List Step → Prop
  | _, [] => True
  | Γ, .bind b value :: steps =>
      value.Valid p s ds Γ ∧ value.ty = b.ty ∧ ValidSteps ((b.id, b.ty) :: Γ) steps
  | Γ, .discard condition _ :: steps =>
      condition.Valid p s ds Γ ∧ condition.ty = .leaf .bool ∧ ValidSteps Γ steps

variable {p s ds}

theorem lookup_cons_eq_none {Γ : List (Nat × Ty)} {id b : Nat} {ty : Ty} (hb : id ≠ b)
    (h : Γ.lookup id = none) : List.lookup id ((b, ty) :: Γ) = none := by
  rw [List.lookup_cons, beq_false_of_ne hb, h]

/-- Steps are valid if they are typed and no two binders share an id; so is all that is typed after
them, whose binders are `rest`. -/
theorem validSteps_of_typed {Γ : List (Nat × Ty)} {steps : List Step} {rest : List Nat}
    (ht : s.TypedSteps p Γ steps) (hu : (steps.flatMap Step.binders ++ rest).Nodup)
    (hb : ∀ id ∈ steps.flatMap Step.binders ++ rest, Γ.lookup id = none)
    (hm : ∀ step ∈ steps, ∀ d ∈ step.expr.mentions, d ∈ ds) :
    ValidSteps p s ds Γ steps ∧ ∀ id ∈ rest, (steps.foldl Step.extend Γ).lookup id = none := by
  induction steps generalizing Γ with
  | nil => exact ⟨trivial, by simpa using hb⟩
  | cons step steps ih =>
      rw [List.flatMap_cons, List.append_assoc] at hu hb
      obtain ⟨hstep, hrest, hne⟩ := List.nodup_append.mp hu
      have hhead := hm step (by simp)
      have hmem := fun step' h => hm step' (List.mem_cons_of_mem _ h)
      cases step with
      | bind b value =>
          obtain ⟨hid, hvalue⟩ := List.nodup_cons.mp hstep
          have hnew (id : Nat) (h : id ∈ steps.flatMap Step.binders ++ rest) :
              List.lookup id ((b.id, b.ty) :: Γ) = none :=
            lookup_cons_eq_none (hne b.id (by simp [Step.binders]) id h).symm
              (hb id (List.mem_append_right _ h))
          obtain ⟨hsteps, hfinal⟩ := ih ht.2 hrest hnew hmem
          refine ⟨⟨⟨ht.1.1, hvalue, fun id h => hb id ?_, hhead⟩, ht.1.2, hsteps⟩, hfinal⟩
          exact List.mem_append_left _ (List.mem_cons_of_mem _ h)
      | discard condition span =>
          obtain ⟨hsteps, hfinal⟩ :=
            ih ht.2 hrest (fun id h => hb id (List.mem_append_right _ h)) hmem
          exact ⟨⟨⟨ht.1.1, hstep, fun id h => hb id (List.mem_append_left _ h), hhead⟩,
            ht.1.2, hsteps⟩, hfinal⟩

theorem validAssignment {a : Assignment} (ha : a ∈ s.assignments) (ht : s.Typed p)
    (hu : s.binders.Nodup) (hm : ∀ e ∈ s.exprs, ∀ d ∈ e.mentions, d ∈ ds) :
    a.value.Valid p s ds s.scope := by
  have hsub : a.value.binders.Sublist (s.assignments.flatMap fun a => a.value.binders) := by
    rw [List.flatMap_def]
    exact List.sublist_flatten_of_mem (List.mem_map_of_mem ha)
  have hsteps : ∀ step ∈ s.steps, ∀ d ∈ step.expr.mentions, d ∈ ds :=
    fun step h => hm _ (List.mem_append_left _ (List.mem_map_of_mem h))
  obtain ⟨_, hfinal⟩ := validSteps_of_typed ht.1 hu (by simp) hsteps
  refine ⟨(ht.2 a ha).1, hsub.nodup (List.nodup_append.mp hu).2.1, fun id hid => ?_, ?_⟩
  · exact hfinal id (hsub.subset hid)
  · exact hm _ (List.mem_append_right _ (List.mem_map_of_mem ha))

end Shader

namespace Lowering

open Dialect (InterfaceVar Main OutputWrite Stmt)

variable (g : Setting) (c : Context)

/-- `LowersSteps g c steps σ conditions ss σ'`: the steps emit `ss`, and leave the conditions of
discards to be evaluated after them. -/
inductive LowersSteps : List Step → Scope → List Dialect.Expr → List Stmt → Scope → Prop where
  | nil {σ} : LowersSteps [] σ [] [] σ
  | bind {b value steps xs σ σ₁ σ₂ ss₁ ss₂} (hv : Lowers c (.declare b value) σ ss₁ σ₁)
      (hs : LowersSteps steps σ₁ xs ss₂ σ₂) :
      LowersSteps (.bind b value :: steps) σ xs (ss₁ ++ ss₂) σ₂
  | discard {condition span steps x xs σ σ₁ σ₂ ss₁ ss₂} (hf : g.shader.stage = .fragment)
      (hc : Lowers c (.value condition x) σ ss₁ σ₁) (hs : LowersSteps steps σ₁ xs ss₂ σ₂) :
      LowersSteps (.discard condition span :: steps) σ (x :: xs) (ss₁ ++ ss₂) σ₂

inductive LowersAssignments :
    List Assignment → Scope → List OutputWrite → List Stmt → Scope → Prop where
  | nil {σ} : LowersAssignments [] σ [] [] σ
  | cons {a as output ident leaf sink x ws σ σ₁ σ₂ ss₁ ss₂}
      (ho : g.outputs[a.output]? = some (output, ident)) (ht : output.ty = .leaf leaf)
      (hv : Lowers c (.value a.value x) σ ss₁ σ₁) (hk : g.sink output ident = .ok sink)
      (hs : LowersAssignments as σ₁ ws ss₂ σ₂) :
      LowersAssignments (a :: as) σ (⟨sink, leaf, x⟩ :: ws) (ss₁ ++ ss₂) σ₂

variable {g c} {σ : Scope}

theorem run_lowerSteps_eq_ok {steps : List Step} {xs : List Dialect.Expr} {ss : List Stmt}
    {σ' : Scope} :
    (g.lowerSteps c steps).run σ = .ok ⟨xs, ss, σ'⟩ ↔ LowersSteps g c steps σ xs ss σ' := by
  induction steps generalizing σ xs ss with
  | nil =>
      rw [Setting.lowerSteps, Emit.run_pure, Except.ok.injEq]
      constructor
      · rintro ⟨⟩
        exact .nil
      · rintro ⟨⟩
        rfl
  | cons step steps ih =>
      cases step with
      | bind b value =>
          rw [Setting.lowerSteps, Emit.run_bind_eq_ok]
          constructor
          · rintro ⟨⟨⟨⟩, ss₁, σ₁⟩, hv, ⟨xs, ss₂, σ₂⟩, hs, ⟨⟩⟩
            exact .bind (lowers_iff_runs.mpr hv) (ih.mp hs)
          · intro h
            cases h with
            | bind hv hs => exact ⟨⟨(), _, _⟩, hv.runs, ⟨_, _, _⟩, ih.mpr hs, rfl⟩
      | discard condition span =>
          rw [Setting.lowerSteps]
          cases hstage : g.shader.stage with
          | vertex =>
              refine iff_of_false (fun h => ?_) (fun h => ?_)
              · obtain ⟨_, h, _⟩ := Emit.run_bind_eq_ok.mp h
                cases h
              · cases h with
                | discard hf => simp [hstage] at hf
          | fragment =>
              rw [if_neg (by simp), Emit.run_bind_eq_ok]
              constructor
              · rintro ⟨⟨x, ss₁, σ₁⟩, hx, _, h, ⟨⟩⟩
                obtain ⟨⟨xs, ss₂, σ₂⟩, hxs, _, ⟨⟩, ⟨⟩⟩ := Emit.run_bind_eq_ok.mp h
                simpa using LowersSteps.discard hstage (lowers_iff_runs.mpr hx) (ih.mp hxs)
              · intro h
                cases h with
                | discard hf hc hs =>
                    refine ⟨_, hc.runs, ⟨_, _, _⟩,
                      Emit.run_bind_eq_ok.mpr ⟨_, ih.mpr hs, _, rfl, rfl⟩, by simp⟩

theorem run_lowerAssignment_eq_ok {a : Assignment} {r : Emitted OutputWrite} :
    (g.lowerAssignment c a).run σ = .ok r ↔
      ∃ output ident leaf, g.outputs[a.output]? = some (output, ident) ∧ output.ty = .leaf leaf ∧
        ∃ x ss σ', Lowers c (.value a.value x) σ ss σ' ∧
          ∃ sink, g.sink output ident = .ok sink ∧ ⟨⟨sink, leaf, x⟩, ss, σ'⟩ = r := by
  rw [Setting.lowerAssignment]
  cases ho : g.outputs[a.output]? with
  | none => simp [Emit.run_ofExcept_eq_ok, Setting.malformed]
  | some oi =>
      obtain ⟨output, ident⟩ := oi
      cases ht : output.ty with
      | record i => simp [Emit.run_ofExcept_eq_ok, Setting.malformed, ht]
      | leaf leaf =>
          simp only [ht, Emit.run_bind_eq_ok, Emit.run_ofExcept_eq_ok, Emit.run_pure,
            Except.ok.injEq]
          constructor
          · rintro ⟨⟨x, ss, σ'⟩, hx, _, ⟨_, ⟨sink, hk, rfl⟩, _, rfl, rfl⟩, rfl⟩
            exact ⟨output, ident, leaf, rfl, ht, x, ss, σ', lowers_iff_runs.mpr hx, sink, hk, by simp⟩
          · rintro ⟨_, _, leaf', ⟨⟩, ht', x, ss, σ', hv, sink, hk, rfl⟩
            cases ht.symm.trans ht'
            exact ⟨_, hv.runs, _, ⟨_, ⟨sink, hk, rfl⟩, _, rfl, rfl⟩, by simp⟩

theorem run_lowerAssignments_eq_ok {as : List Assignment} {ws : List OutputWrite} {ss : List Stmt}
    {σ' : Scope} :
    (g.lowerAssignments c as).run σ = .ok ⟨ws, ss, σ'⟩ ↔
      LowersAssignments g c as σ ws ss σ' := by
  induction as generalizing σ ws ss with
  | nil =>
      rw [Setting.lowerAssignments, Emit.run_pure, Except.ok.injEq]
      constructor
      · rintro ⟨⟩
        exact .nil
      · rintro ⟨⟩
        rfl
  | cons a as ih =>
      rw [Setting.lowerAssignments, Emit.run_bind_eq_ok]
      constructor
      · rintro ⟨_, hw, _, h, ⟨⟩⟩
        obtain ⟨⟨ws, ss₂, σ₂⟩, hws, _, ⟨⟩, ⟨⟩⟩ := Emit.run_bind_eq_ok.mp h
        obtain ⟨output, ident, leaf, ho, ht, x, ss₁, σ₁, hv, sink, hk, rfl⟩ :=
          run_lowerAssignment_eq_ok.mp hw
        simpa using LowersAssignments.cons ho ht hv hk (ih.mp hws)
      · intro h
        cases h with
        | cons ho ht hv hk hs =>
            exact ⟨_, run_lowerAssignment_eq_ok.mpr ⟨_, _, _, ho, ht, _, _, _, hv, _, hk, rfl⟩,
              ⟨_, _, _⟩, Emit.run_bind_eq_ok.mpr ⟨_, ih.mpr hs, _, rfl, rfl⟩, by simp⟩

theorem lowerMain_eq_ok {s : Progress} {main : Main} :
    g.lowerMain s = .ok main ↔
      ∃ conditions writes ss₁ σ₁ ss₂ σ₂,
        LowersSteps g (g.context s) g.shader.steps ⟨s.supply, []⟩ conditions ss₁ σ₁ ∧
        LowersAssignments g (g.context s) g.shader.assignments σ₁ writes ss₂ σ₂ ∧
        ((g.shader.stage = .fragment ∧ .fragment (ss₁ ++ ss₂) conditions writes = main) ∨
          (g.shader.stage = .vertex ∧ g.shader.positions = 1 ∧
            .vertex (ss₁ ++ ss₂) writes = main)) := by
  rw [Setting.lowerMain, Except.bind_eq_ok]
  simp only [Setting.lowerBody, Emit.run_bind_eq_ok, Emit.run_pure, Except.ok.injEq]
  constructor
  · rintro ⟨_, ⟨⟨xs, ss₁, σ₁⟩, hs, _, ⟨⟨ws, ss₂, σ₂⟩, ha, _, rfl, rfl⟩, rfl⟩, h⟩
    refine ⟨xs, ws, ss₁, σ₁, ss₂, σ₂, run_lowerSteps_eq_ok.mp hs,
      run_lowerAssignments_eq_ok.mp ha, ?_⟩
    cases hstage : g.shader.stage with
    | fragment =>
        simp only [hstage, List.append_nil, Except.pure_eq_ok] at h
        exact .inl ⟨rfl, h⟩
    | vertex =>
        simp only [hstage, List.append_nil] at h
        split at h
        next hp => exact .inr ⟨rfl, hp, Except.pure_eq_ok.mp h⟩
        next => cases h
  · rintro ⟨xs, ws, ss₁, σ₁, ss₂, σ₂, hs, ha, h⟩
    refine ⟨_, ⟨_, run_lowerSteps_eq_ok.mpr hs, _, ⟨_, run_lowerAssignments_eq_ok.mpr ha, _, rfl,
      rfl⟩, rfl⟩, ?_⟩
    rcases h with ⟨hstage, rfl⟩ | ⟨hstage, hp, rfl⟩
    · simp [hstage, Except.pure_eq_ok]
    · simp [hstage, hp, Except.pure_eq_ok]

theorem LowersSteps.fragment {steps : List Step} {xs : List Dialect.Expr} {ss : List Stmt}
    {σ' : Scope} (h : LowersSteps g c steps σ xs ss σ') {condition : Expr} {span : Span}
    (hmem : .discard condition span ∈ steps) : g.shader.stage = .fragment := by
  induction h with
  | nil => simp at hmem
  | bind _ _ ih => exact ih (by simpa using hmem)
  | discard hf => exact hf

theorem LowersSteps.eq_nil_of_vertex {steps : List Step} {xs : List Dialect.Expr}
    {ss : List Stmt} {σ' : Scope} (h : LowersSteps g c steps σ xs ss σ')
    (hs : g.shader.stage = .vertex) : xs = [] := by
  induction h with
  | nil => rfl
  | bind _ _ ih => exact ih
  | discard hf => simp [hs] at hf

theorem lowerMain_parts {s : Progress} {main : Main} (h : g.lowerMain s = .ok main) :
    ∃ ss₁ σ ss₂ σ',
      LowersSteps g (g.context s) g.shader.steps ⟨s.supply, []⟩ main.discards ss₁ σ ∧
      LowersAssignments g (g.context s) g.shader.assignments σ main.outputs ss₂ σ' ∧
        main.statements = ss₁ ++ ss₂ := by
  obtain ⟨xs, ws, ss₁, σ, ss₂, σ', hs, ha, ⟨_, rfl⟩ | ⟨hv, _, rfl⟩⟩ := lowerMain_eq_ok.mp h
  · exact ⟨ss₁, σ, ss₂, σ', hs, ha, rfl⟩
  · obtain rfl := hs.eq_nil_of_vertex hv
    exact ⟨ss₁, σ, ss₂, σ', hs, ha, rfl⟩

theorem LowersSteps.gives {steps : List Step} {xs : List Dialect.Expr} {ss : List Stmt}
    {σ' : Scope} (h : LowersSteps g c steps σ xs ss σ') :
    σ.supply.Gives (Stmt.localNamesOf ss) σ'.supply := by
  induction h with
  | nil => exact .nil
  | bind hv _ ih =>
      rw [Stmt.localNamesOf_append]
      exact hv.gives.append ih
  | discard _ hc _ ih =>
      rw [Stmt.localNamesOf_append]
      exact hc.gives.append ih

theorem LowersAssignments.gives {as : List Assignment} {ws : List OutputWrite} {ss : List Stmt}
    {σ' : Scope} (h : LowersAssignments g c as σ ws ss σ') :
    σ.supply.Gives (Stmt.localNamesOf ss) σ'.supply := by
  induction h with
  | nil => exact .nil
  | cons _ _ hv _ _ ih =>
      rw [Stmt.localNamesOf_append]
      exact hv.gives.append ih

theorem gives_lowerMain {s : Progress} {main : Main} (h : g.lowerMain s = .ok main) :
    ∃ supply, s.supply.Gives (Stmt.localNamesOf main.statements) supply := by
  obtain ⟨ss₁, σ, ss₂, σ', hs, ha, hm⟩ := lowerMain_parts h
  rw [hm, Stmt.localNamesOf_append]
  exact ⟨σ'.supply, hs.gives.append ha.gives⟩

theorem LowersAssignments.writes {as : List Assignment} {σ' : Scope} {ws : List OutputWrite}
    {ss : List Stmt} (h : LowersAssignments g c as σ ws ss σ') :
    List.Forall₂ (fun a o => ∃ output ident, g.outputs[a.output]? = some (output, ident) ∧
      output.ty = .leaf o.leaf ∧ g.sink output ident = .ok o.sink) as ws := by
  induction h with
  | nil => exact .nil
  | cons ho ht _ hk _ ih => exact .cons ⟨_, _, ho, ht, hk⟩ ih

theorem LowersAssignments.leaf {as : List Assignment} {σ' : Scope} {ws : List OutputWrite}
    {ss : List Stmt} (h : LowersAssignments g c as σ ws ss σ') {a : Assignment} (ha : a ∈ as) :
    ∃ output leaf, g.shader.outputs[a.output]? = some output ∧ output.ty = .leaf leaf := by
  obtain ⟨k, hk⟩ := List.mem_iff_getElem?.mp ha
  obtain ⟨o, _, output, ident, ho, ht, _⟩ := h.writes.getElem?_right hk
  exact ⟨output, o.leaf, (List.getElem?_zip_eq_some.mp ho).1, ht⟩

theorem inputVar_eq_ok {input : Slot} {ident : String} {x : InterfaceVar} :
    g.inputVar input ident = .ok x ↔
      ∃ leaf, input.ty = .leaf leaf ∧ ⟨ident, leaf, g.inputStorage leaf⟩ = x := by
  rw [Setting.inputVar]
  cases input.ty with
  | leaf t => simp
  | record i => simp [Setting.malformed]

theorem inputVars_eq_ok {ins : List InterfaceVar} :
    g.inputVars = .ok ins ↔
      List.Forall₂ (fun qi x => g.inputVar qi.1 qi.2 = .ok x)
        (g.shader.inputs.zip (g.interface.inputs.map Item.ident)) ins := by
  rw [Setting.inputVars, Except.mapM_eq_ok]

theorem name_of_sink {output : Output} {ident name : String}
    (h : g.sink output ident = .ok (.var name)) : name = ident := by
  rw [Setting.sink] at h
  split at h
  · cases h
    rfl
  · cases h
  · cases h
  · split at h
    · cases h
      rfl
    · split at h <;> cases h
  · cases h

theorem outputVar?_eq_ok {output : Output} {ident : String} {x? : Option InterfaceVar} :
    g.outputVar? output ident = .ok x? ↔
      ∃ sink, g.sink output ident = .ok sink ∧
        ((sink = .var ident ∧ ∃ leaf, output.ty = .leaf leaf ∧
            (g.outputStorage? leaf output.target).map (fun storage => ⟨ident, leaf, storage⟩) = x?) ∨
          ((∀ name, sink ≠ .var name) ∧ none = x?)) := by
  rw [Setting.outputVar?, Except.bind_eq_ok]
  refine exists_congr fun sink => and_congr_right fun hs => ?_
  cases sink with
  | var name =>
      obtain rfl := name_of_sink hs
      cases output.ty with
      | leaf t => simp [Except.pure_eq_ok]
      | record i => simp [Setting.malformed]
  | _ => simp [Except.pure_eq_ok]

theorem outputVars_eq_ok {outs : List InterfaceVar} :
    g.outputVars = .ok outs ↔
      ∃ vars, List.Forall₂ (fun oi x? => g.outputVar? oi.1 oi.2 = .ok x?) g.outputs vars ∧
        vars.filterMap id = outs := by
  rw [Setting.outputVars, Except.bind_eq_ok]
  simp only [Except.mapM_eq_ok, Except.pure_eq_ok]

/-- The interface of a lowered shader is that of the setting. -/
structure Presents (g : Setting) (d : Dialect.Shader) : Prop where
  inputs : g.inputVars = .ok d.inputs
  outputs : g.outputVars = .ok d.outputs
  uniforms : d.uniforms = g.uniformVars
  stage : d.stage = g.shader.stage

theorem Presents.input_of_mem {d : Dialect.Shader} (P : Presents g d) {x : InterfaceVar}
    (hx : x ∈ d.inputs) : ∃ q ∈ g.shader.inputs, ∃ ident, g.inputVar q ident = .ok x := by
  obtain ⟨k, hk⟩ := List.mem_iff_getElem?.mp hx
  obtain ⟨⟨q, ident⟩, hq, hvar⟩ := (inputVars_eq_ok.mp P.inputs).getElem?_left hk
  exact ⟨q, List.mem_of_getElem? (List.getElem?_zip_eq_some.mp hq).1, ident, hvar⟩

theorem Presents.mem_of_input {d : Dialect.Shader} (P : Presents g d)
    (hl : g.interface.inputs.length = g.shader.inputs.length) {q : Slot}
    (hq : q ∈ g.shader.inputs) : ∃ x ∈ d.inputs, ∃ ident, g.inputVar q ident = .ok x := by
  obtain ⟨k, hk⟩ := List.mem_iff_getElem?.mp hq
  obtain ⟨item, hitem⟩ : ∃ item, g.interface.inputs[k]? = some item := by
    have hlt := (List.getElem?_eq_some_iff.mp hk).1
    exact ⟨_, List.getElem?_eq_getElem (hl ▸ hlt)⟩
  have hzip : (g.shader.inputs.zip (g.interface.inputs.map Item.ident))[k]? = some (q, item.ident) :=
    List.getElem?_zip_eq_some.mpr ⟨hk, by simp [hitem]⟩
  obtain ⟨x, hx, hvar⟩ := (inputVars_eq_ok.mp P.inputs).getElem?_right hzip
  exact ⟨x, List.mem_of_getElem? hx, item.ident, hvar⟩

theorem Presents.mem_outputs {d : Dialect.Shader} (P : Presents g d) {x : InterfaceVar} :
    x ∈ d.outputs ↔ ∃ (k : Nat) (o : Output) (ident : String),
      g.outputs[k]? = some (o, ident) ∧ g.outputVar? o ident = .ok (some x) := by
  obtain ⟨vars, hvars, houts⟩ := outputVars_eq_ok.mp P.outputs
  rw [← houts, List.mem_filterMap]
  constructor
  · rintro ⟨_, hx, rfl⟩
    obtain ⟨k, hk⟩ := List.mem_iff_getElem?.mp hx
    obtain ⟨⟨o, ident⟩, ho, hvar⟩ := hvars.getElem?_left hk
    exact ⟨k, o, ident, ho, hvar⟩
  · rintro ⟨k, o, ident, ho, hvar⟩
    obtain ⟨x?, hx?, hvar'⟩ := hvars.getElem?_right ho
    obtain rfl : some x = x? := Except.ok.inj (hvar.symm.trans hvar')
    exact ⟨some x, List.mem_of_getElem? hx?, rfl⟩

theorem inputVars_names {ins : List InterfaceVar} (h : g.inputVars = .ok ins)
    (hl : g.interface.inputs.length = g.shader.inputs.length) :
    ins.map InterfaceVar.name = g.interface.inputs.map Item.ident := by
  have hnames : ins.map InterfaceVar.name
      = (g.shader.inputs.zip (g.interface.inputs.map Item.ident)).map Prod.snd := by
    symm
    rw [← List.forall₂_eq_eq_eq, List.forall₂_map_left_iff, List.forall₂_map_right_iff]
    refine (inputVars_eq_ok.mp h).imp fun qi x hx => ?_
    obtain ⟨_, _, rfl⟩ := inputVar_eq_ok.mp hx
    rfl
  rw [hnames, List.map_snd_zip]
  simp [hl]

theorem Presents.leaf_inputs {d : Dialect.Shader} (P : Presents g d)
    (hl : g.interface.inputs.length = g.shader.inputs.length) (q : Slot) (hq : q ∈ g.shader.inputs) :
    ∃ t, q.ty = .leaf t := by
  obtain ⟨k, hk⟩ := List.mem_iff_getElem?.mp hq
  have hlt : k < (g.interface.inputs.map Item.ident).length := by
    rw [List.length_map, hl]
    exact (List.getElem?_eq_some_iff.mp hk).1
  have hz : (g.shader.inputs.zip (g.interface.inputs.map Item.ident))[k]? = some (q, _) :=
    List.getElem?_zip_eq_some.mpr ⟨hk, List.getElem?_eq_getElem hlt⟩
  obtain ⟨x, _, hx⟩ := (inputVars_eq_ok.mp P.inputs).getElem?_right hz
  obtain ⟨t, ht, _⟩ := inputVar_eq_ok.mp hx
  exact ⟨t, ht⟩

theorem outputVars_names {outs : List InterfaceVar} (h : g.outputVars = .ok outs)
    (hl : g.interface.outputs.length = g.shader.outputs.length) :
    (outs.map InterfaceVar.name).Sublist (g.interface.outputs.map Item.ident) := by
  obtain ⟨vars, hvars, rfl⟩ := outputVars_eq_ok.mp h
  have hsnd : g.outputs.map Prod.snd = g.interface.outputs.map Item.ident := by
    rw [Setting.outputs, List.map_snd_zip]
    simp [hl]
  rw [← hsnd]
  clear hsnd h
  generalize g.outputs = outputs at hvars
  induction hvars with
  | nil => simp
  | @cons oi x? _ _ hx _ ih =>
      obtain ⟨_, _, ⟨_, leaf, _, rfl⟩ | ⟨_, rfl⟩⟩ := outputVar?_eq_ok.mp hx
      · cases g.outputStorage? leaf oi.1.target with
        | none => exact ih.cons _
        | some storage => exact ih.cons_cons _
      · exact ih.cons _

theorem Presents.uniform_names {d : Dialect.Shader} (P : Presents g d) :
    d.uniforms.map Dialect.UniformVar.name = g.interface.uniforms.map BoundUniform.ident := by
  rw [P.uniforms, Setting.uniformVars, List.map_map]
  rfl

theorem lower_eq_ok {p : Program} {s : Shader} {closure : Closure} {v : Version} {table : Table}
    {d : Dialect.Shader} :
    lower p s closure v table = .ok d ↔
      ∃ i supply, Interface.assign p s (.forShader table.nativeNames) = .ok (i, supply) ∧
        ∃ progress, (Setting.mk p s v table i).declareAll supply closure = .ok progress ∧
          (Setting.mk p s v table i).lowerMain progress = .ok d.main ∧
          Presents ⟨p, s, v, table, i⟩ d ∧
          d.name = s.name ∧ d.version = v ∧ d.decls = progress.decls := by
  rw [lower, Except.bind_eq_ok]
  simp only [Except.mapError_eq_ok, Except.bind_eq_ok, Except.pure_eq_ok, Prod.exists]
  constructor
  · rintro ⟨i, supply, hi, progress, hp, main, hm, ins, hins, outs, houts, rfl⟩
    exact ⟨i, supply, hi, progress, hp, hm, ⟨hins, houts, rfl, rfl⟩, rfl, rfl, rfl⟩
  · rintro ⟨i, supply, hi, progress, hp, hm, P, hn, hv, hd⟩
    refine ⟨i, supply, hi, progress, hp, d.main, hm, d.inputs, P.inputs, d.outputs, P.outputs, ?_⟩
    rw [← P.uniforms, ← hn, ← hv, ← hd, ← P.stage]

end Lowering

end ShaderDialects
