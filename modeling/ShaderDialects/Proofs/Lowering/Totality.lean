import ShaderDialects.Proofs.Legality.Agreement
import ShaderDialects.Proofs.Lowering.Lowerable

namespace ShaderDialects

def TermKind.OperandsFit (p : Program) (table : Table) (stage : Stage) (v : Version) :
    TermKind → Prop
  | function _ _ body | value _ body => body.OperandsFit p table stage v
  | external _ _ => True

instance (p : Program) (table : Table) (stage : Stage) (v : Version) (k : TermKind) :
    Decidable (k.OperandsFit p table stage v) :=
  match k with
  | .function _ _ body | .value _ body =>
      inferInstanceAs (Decidable (body.OperandsFit p table stage v))
  | .external _ _ => instDecidableTrue

@[mk_iff]
structure OperandsFit (p : Program) (table : Table) (v : Version) (s : Shader) (closure : Closure) :
    Prop where
  shader : ∀ e ∈ s.exprs, e.OperandsFit p table s.stage v
  terms : closure.AllTerms p fun t => t.kind.OperandsFit p table s.stage v

instance (p : Program) (table : Table) (v : Version) (s : Shader) (closure : Closure) :
    Decidable (OperandsFit p table v s closure) :=
  decidable_of_iff _ (operandsFit_iff p table v s closure).symm

namespace Lowering

open Dialect (Stmt)
open Identifier (Supply)
open Legality

section Declarations

variable {table : Table} {stage : Stage} {v : Version} {shader : Shader} {c : Context}
  {ds : List DeclId}

theorem Ready.record (R : Ready table stage v shader c ds) {i : Nat} {r : Record}
    (hr : c.program.records[i]? = some r) (hm : ∀ d ∈ r.mentions, d ∈ ds) (name : String) :
    Ready table stage v shader
      { c with structs := (i, ⟨name, c.program.fieldNames i⟩) :: c.structs } (ds ++ [.record i]) := by
  refine ⟨⟨fun j hj => ?_, fun j r' hj hr' d hd => ?_⟩, fun j hj => R.terms j (by simpa using hj),
    R.inputs, R.parameters⟩
  · by_cases hji : j = i
    · subst hji
      exact ⟨name, by simp⟩
    · obtain ⟨found, hfound⟩ := R.declared j (by simpa [hji] using hj)
      exact ⟨found, by simpa [List.lookup_cons, beq_false_of_ne hji] using hfound⟩
  · refine List.mem_append_left _ ?_
    rcases List.mem_append.mp hj with hj | hj
    · exact R.nested j r' hj hr' d hd
    · obtain rfl : j = i := by simpa using hj
      cases hr.symm.trans hr'
      exact hm d hd

theorem Ready.term (R : Ready table stage v shader c ds) {i : Nat} {t : Term} {form : TermForm}
    (ht : c.program.terms[i]? = some t) (hf : form.Serves table stage v t.kind) :
    Ready table stage v shader { c with terms := (i, form) :: c.terms } (ds ++ [.term i]) := by
  refine ⟨⟨fun j hj => R.declared j (by simpa using hj), fun j r hj hr d hd => ?_⟩, fun j hj => ?_,
    R.inputs, R.parameters⟩
  · exact List.mem_append_left _ (R.nested j r (by simpa using hj) hr d hd)
  · by_cases hji : j = i
    · subst hji
      exact ⟨t, form, ht, by simp, hf⟩
    · obtain ⟨t', form', ht', hform', hserves⟩ := R.terms j (by simpa [hji] using hj)
      exact ⟨t', form', ht', by simpa [List.lookup_cons, beq_false_of_ne hji] using hform', hserves⟩

theorem Routine.serves {k : TermKind} {r : Routine} (hr : Routine.ofKind? k = some r)
    (name : String) : (r.form name).Serves table stage v k := by
  cases k with
  | function params result body =>
      cases hr
      exact ⟨by simp [TermKind.valueTy?], fun _ args _ => ⟨_, rfl⟩⟩
  | value ty body =>
      cases hr
      exact ⟨fun _ => ⟨_, rfl⟩, by simp [TermKind.functionTy?]⟩
  | external symbol signature => cases hr

theorem native_serves {symbol : String} {signature : Signature} {form : Form}
    (hd : table.resolve symbol signature.kind v stage = .ok (.native form))
    (hs : (Decision.native form).Suits symbol signature.kind) :
    (TermForm.native form).Serves table stage v (.external symbol signature) := by
  cases signature with
  | value leaf =>
      refine ⟨fun _ => ?_, by simp [TermKind.functionTy?]⟩
      have hvar : form.isVariable = true := hs.mpr rfl
      cases form with
      | var name => exact ⟨_, rfl⟩
      | call name | binary op | unary op => cases hvar
  | function params result =>
      refine ⟨by simp [TermKind.valueTy?], fun _ args ha => ?_⟩
      have hvar : form.isVariable = false := by
        rw [Bool.eq_false_iff]
        exact fun h => absurd (hs.mp h) (by simp [Signature.kind])
      refine Form.exists_build? hvar fun n hn => ha n ?_
      simpa [TermKind.operands?, hd] using hn

/-- How a lowered shader refers to what is declared in place of a builtin. -/
def bodyForm (name : String) : Emulation.Body → TermForm
  | .function _ _ _ => .emulatedFunction name
  | .constant _ _ => .emulatedConstant name

theorem emulation_serves {symbol : String} {signature : Signature} {e : Emulation}
    (hs : (Decision.emulated e).Suits symbol signature.kind) (name : String) :
    (bodyForm name (e.build signature)).Serves table stage v (.external symbol signature) := by
  obtain ⟨hlisted, hkind, -⟩ := hs
  cases signature with
  | value leaf =>
      refine ⟨fun _ => ?_, by simp [TermKind.functionTy?]⟩
      cases e with
      | pi => exact ⟨_, rfl⟩
      | custom => cases hlisted
      | _ => cases hkind
  | function params result =>
      refine ⟨by simp [TermKind.valueTy?], fun _ args _ => ?_⟩
      cases e with
      | pi => cases hkind
      | custom => cases hlisted
      | _ => exact ⟨_, rfl⟩

theorem context_declareEmulation (g : Setting) (s : Progress) (i : Nat) (t : Term) (symbol : String)
    (body : Emulation.Body) :
    g.context (Setting.declareEmulation s i t symbol body) = { g.context s with
      terms := (i, bodyForm (s.supply.fresh (t.name ++ "_emulated")).1 body) :: s.terms } := by
  cases body <;> rfl

theorem exists_lookup_bindParams {σ : Scope} {bs : List Binding} {id : Nat}
    (h : id ∉ bs.map Binding.id → ∃ name, σ.locals.lookup id = some name) :
    ∃ name, (σ.bindParams bs).2.locals.lookup id = some name := by
  induction bs generalizing σ with
  | nil => exact h (by simp)
  | cons b bs ih =>
      refine ih fun hbs => Scope.exists_lookup_bind fun hb => h ?_
      simp [hb, hbs]

theorem covers_routineScope (s : Progress) (t : Term) (r : Routine) :
    Covers (r.params.map fun b => (b.id, b.ty)) (s.routineScope t r).2 := by
  intro id ty hty
  obtain ⟨k, b, hb, rfl, _⟩ := lookup_params_eq_some hty
  refine exists_lookup_bindParams fun hid => absurd ?_ hid
  exact List.mem_map_of_mem (List.mem_of_getElem? hb)

theorem Routine.operandsFit {p : Program} {k : TermKind} {r : Routine}
    (hr : Routine.ofKind? k = some r) (h : k.OperandsFit p table stage v) :
    r.body.OperandsFit p table stage v := by
  cases k with
  | function params result body | value ty body =>
      cases hr
      exact h
  | external symbol signature => cases hr

variable {g : Setting} {s : Progress}

def Resolves (table : Table) (stage : Stage) (v : Version) : Prop :=
  ∀ symbol kind d, table.resolve symbol kind v stage = .ok d → d.Suits symbol kind

theorem exists_declares_routine (R : Ready g.table g.shader.stage g.version g.shader (g.context s) ds)
    {i : Nat} {t : Term} (ht : g.program.terms[i]? = some t) {r : Routine}
    (hr : Routine.ofKind? t.kind = some r) (hm : ∀ d ∈ t.kind.mentions, d ∈ ds)
    (hn : t.kind.Noted g.program g.shader)
    (ho : t.kind.OperandsFit g.program g.table g.shader.stage g.version)
    (hb : ExprAllowed g.program g.version r.body) : ∃ s', Declares g s (.term i) s' ∧
      Ready g.table g.shader.stage g.version g.shader (g.context s') (ds ++ [.term i]) := by
  rw [Routine.mentions hr] at hm
  simp only [List.forall_mem_append, List.forall_mem_flatMap] at hm
  obtain ⟨⟨hparams, hresult⟩, hbody⟩ := hm
  obtain ⟨tys, htys⟩ := List.exists_forall₂ fun b hmem => R.toStructured.ty (hparams b hmem)
  obtain ⟨rt, hrt⟩ := R.toStructured.ty hresult
  have hlow : Lowerable g.table g.shader.stage g.version g.program g.shader ds
      (r.params.map fun b => (b.id, b.ty)) r.body :=
    ⟨Routine.noted hr hn, hbody, Routine.operandsFit hr ho, hb.built⟩
  obtain ⟨_, hinto⟩ := succeeds R hlow (covers_routineScope s t r)
  obtain ⟨ss, σ, hss⟩ := hinto .result
  exact ⟨_, .routine ht hr htys hrt hss, R.term ht (Routine.serves hr _)⟩

theorem declares_of_allowed (hg : Resolves g.table g.shader.stage g.version)
    (R : Ready g.table g.shader.stage g.version g.shader (g.context s) ds)
    {order post : List DeclId} {d : DeclId} (hlinear : Linear g.program order)
    (horder : order = ds ++ d :: post)
    (hd : DeclAllowed g.program g.table g.shader.stage g.version d)
    (hn : ∀ i t, d = .term i → g.program.terms[i]? = some t → t.kind.Noted g.program g.shader)
    (ho : ∀ i t, d = .term i → g.program.terms[i]? = some t →
      t.kind.OperandsFit g.program g.table g.shader.stage g.version) :
    ∃ s', Declares g s d s' ∧
      Ready g.table g.shader.stage g.version g.shader (g.context s') (ds ++ [d]) := by
  cases d with
  | record i =>
      obtain ⟨r, hr, hm⟩ := hlinear.record horder
      obtain ⟨tys, htys⟩ := List.exists_forall₂ fun f hf =>
        R.toStructured.ty fun d hd => hm d (List.mem_flatMap.mpr ⟨f, hf, hd⟩)
      exact ⟨_, .record hr htys, R.record hr hm _⟩
  | term i =>
      obtain ⟨t, ht, hm⟩ := hlinear.term horder
      obtain ⟨t', ht', hallowed⟩ := hd
      cases ht.symm.trans ht'
      cases hk : t.kind with
      | function params result body =>
          have hr : Routine.ofKind? t.kind = some ⟨.function, params, result, body⟩ := by rw [hk]; rfl
          exact exists_declares_routine R ht hr hm (hn i t rfl ht) (ho i t rfl ht)
            ((termAllowed_routine hr).mp hallowed).2.2
      | value ty body =>
          have hr : Routine.ofKind? t.kind = some ⟨.value, [], ty, body⟩ := by rw [hk]; rfl
          exact exists_declares_routine R ht hr hm (hn i t rfl ht) (ho i t rfl ht)
            ((termAllowed_routine hr).mp hallowed).2.2
      | external symbol signature =>
          rw [hk] at hallowed
          obtain ⟨⟨decision, hres⟩, _⟩ := hallowed
          have hsuits := hg _ _ _ hres
          cases decision with
          | native form => exact ⟨_, .native ht hk hres, R.term ht (hk ▸ native_serves hres hsuits)⟩
          | emulated e =>
              refine ⟨_, .emulation ht hk hres, ?_⟩
              rw [context_declareEmulation]
              exact R.term ht (hk ▸ emulation_serves hsuits _)

theorem exists_declareAll (hg : Resolves g.table g.shader.stage g.version) {closure : Closure}
    {supply : Supply}
    (I : Interface.Assigned g.program g.shader g.interface supply)
    (hlinear : Linear g.program closure.order)
    (hd : ∀ d ∈ closure.order, DeclAllowed g.program g.table g.shader.stage g.version d)
    (hn : closure.AllTerms g.program fun t => t.kind.Noted g.program g.shader)
    (ho : closure.AllTerms g.program fun t =>
      t.kind.OperandsFit g.program g.table g.shader.stage g.version) :
    ∃ s, g.declareAll supply closure = .ok s ∧
      Ready g.table g.shader.stage g.version g.shader (g.context s) closure.order := by
  refine Except.exists_foldlM_eq_ok
    (motive := fun ds s => Ready g.table g.shader.stage g.version g.shader (g.context s) ds) ?_ ?_
  · exact ⟨⟨nofun, nofun⟩, nofun, I.inputs, I.parameters⟩
  · intro pre d post s horder R
    have hmem : d ∈ closure.order := by simp [horder]
    obtain ⟨s', hs', R'⟩ := declares_of_allowed hg R hlinear horder (hd d hmem)
      (fun i t hi => hn i t (hi ▸ hmem)) fun i t hi => ho i t (hi ▸ hmem)
    exact ⟨s', declare_eq_ok.mpr hs', R'⟩

end Declarations

section Shader

variable {table : Table} {stage : Stage} {v : Version} {s : Shader} {c : Context}
  {ds : List DeclId} {g : Setting} {Γ : List (Nat × Ty)} {σ : Scope}

theorem exists_lowersSteps (R : Ready table stage v s c ds) {steps : List Step}
    (hn : s.NotedSteps c.program Γ steps)
    (hm : ∀ step ∈ steps, ∀ d ∈ step.expr.mentions, d ∈ ds)
    (ho : ∀ step ∈ steps, step.expr.OperandsFit c.program table stage v)
    (hb : ∀ step ∈ steps, ExprAllowed c.program v step.expr)
    (hf : ∀ condition span, .discard condition span ∈ steps → g.shader.stage = .fragment)
    (hσ : Covers Γ σ) :
    ∃ xs ss σ', LowersSteps g c steps σ xs ss σ' ∧ Covers (steps.foldl Step.extend Γ) σ' := by
  induction steps generalizing Γ σ with
  | nil => exact ⟨[], [], σ, .nil, hσ⟩
  | cons step steps ih =>
      obtain ⟨hm, hms⟩ := List.forall_mem_cons.mp hm
      obtain ⟨ho, hos⟩ := List.forall_mem_cons.mp ho
      obtain ⟨hb, hbs⟩ := List.forall_mem_cons.mp hb
      have hfs (condition : Expr) (span : Span) (hmem : .discard condition span ∈ steps) :=
        hf condition span (List.mem_cons_of_mem _ hmem)
      cases step with
      | bind b value =>
          have hvalue : Lowerable table stage v c.program s ds Γ value := ⟨hn.1.1, hm, ho, hb.built⟩
          obtain ⟨ss₁, σ₁, hv, hσ₁⟩ := exists_declare (hn.1.2 ▸ hvalue.ty R.toStructured)
            (fun σ hσ => succeeds R hvalue hσ) hσ
          obtain ⟨xs, ss₂, σ₂, hs, hσ₂⟩ := ih hn.2 hms hos hbs hfs hσ₁
          exact ⟨xs, _, σ₂, .bind hv hs, hσ₂⟩
      | discard condition span =>
          have hcondition : Lowerable table stage v c.program s ds Γ condition :=
            ⟨hn.1, hm, ho, hb.built⟩
          obtain ⟨⟨x, ss₁, σ₁, hx⟩, _⟩ := succeeds R hcondition hσ
          obtain ⟨xs, ss₂, σ₂, hs, hσ₂⟩ := ih hn.2 hms hos hbs hfs (hx.covers hσ)
          exact ⟨x :: xs, _, σ₂, .discard (hf condition span (by simp)) hx hs, hσ₂⟩

theorem exists_lowersAssignments (R : Ready table stage v s c ds) {as : List Assignment}
    (hl : ∀ a ∈ as, Lowerable table stage v c.program s ds Γ a.value)
    (hout : ∀ a ∈ as, ∃ output ident leaf sink, g.outputs[a.output]? = some (output, ident) ∧
      output.ty = .leaf leaf ∧ g.sink output ident = .ok sink) (hσ : Covers Γ σ) :
    ∃ ws ss σ', LowersAssignments g c as σ ws ss σ' := by
  induction as generalizing σ with
  | nil => exact ⟨[], [], σ, .nil⟩
  | cons a as ih =>
      obtain ⟨ha, has⟩ := List.forall_mem_cons.mp hl
      obtain ⟨⟨output, ident, leaf, sink, ho, hty, hk⟩, houts⟩ := List.forall_mem_cons.mp hout
      obtain ⟨⟨x, ss₁, σ₁, hx⟩, _⟩ := succeeds R ha hσ
      obtain ⟨ws, ss₂, σ₂, hs⟩ := ih has houts (hx.covers hσ)
      exact ⟨_, _, σ₂, .cons ho hty hx hk hs⟩

theorem exists_sink {o : Output} (h : OutputAllowed g.shader.stage g.version o) (ident : String) :
    ∃ leaf sink, o.ty = .leaf leaf ∧ g.sink o ident = .ok sink := by
  obtain ⟨leaf, hty, htarget⟩ := h
  refine ⟨leaf, ?_⟩
  rw [Setting.sink]
  cases hs : g.shader.stage with
  | vertex =>
      cases hg : o.target with
      | varying | position => exact ⟨_, hty, rfl⟩
      | attachment n | depth =>
          rw [hs, hg] at htarget
          exact htarget.elim
  | fragment =>
      cases hg : o.target with
      | depth => exact ⟨_, hty, rfl⟩
      | attachment n =>
          simp only
          split
          · exact ⟨_, hty, rfl⟩
          · split <;> exact ⟨_, hty, rfl⟩
      | varying | position =>
          rw [hs, hg] at htarget
          exact htarget.elim

theorem exists_lowerMain {closure : Closure} {progress : Progress}
    (R : Ready g.table g.shader.stage g.version g.shader (g.context progress) closure.order)
    (hm : ∀ e ∈ g.shader.exprs, ∀ d ∈ e.mentions, d ∈ closure.order)
    (hn : g.shader.Noted g.program)
    (ho : ∀ e ∈ g.shader.exprs, e.OperandsFit g.program g.table g.shader.stage g.version)
    (A : Admitted g.program g.table g.version g.shader closure)
    (hout : ∀ a ∈ g.shader.assignments, ∃ o ident, g.outputs[a.output]? = some (o, ident)) :
    ∃ main, g.lowerMain progress = .ok main := by
  have step {P : Expr → Prop} (h : ∀ e ∈ g.shader.exprs, P e) (step : Step)
      (hs : step ∈ g.shader.steps) : P step.expr :=
    h _ (List.mem_append_left _ (List.mem_map_of_mem hs))
  have value {P : Expr → Prop} (h : ∀ e ∈ g.shader.exprs, P e) (a : Assignment)
      (ha : a ∈ g.shader.assignments) : P a.value :=
    h _ (List.mem_append_right _ (List.mem_map_of_mem ha))
  have hfragment (condition : Expr) (span : Span)
      (hmem : .discard condition span ∈ g.shader.steps) : g.shader.stage = .fragment := by
    cases hs : g.shader.stage with
    | fragment => rfl
    | vertex => exact absurd hmem ((A.vertex hs).2 condition span)
  obtain ⟨xs, ss₁, σ₁, hs, hσ₁⟩ := exists_lowersSteps R hn.1 (step hm) (step ho) (step A.exprs)
    hfragment fun _ _ h => by simp at h
  have houts (a : Assignment) (ha : a ∈ g.shader.assignments) :
      ∃ o ident leaf sink, g.outputs[a.output]? = some (o, ident) ∧ o.ty = .leaf leaf ∧
        g.sink o ident = .ok sink := by
    obtain ⟨o, ident, ho⟩ := hout a ha
    have hmem : o ∈ g.shader.outputs := List.mem_of_getElem? (List.getElem?_zip_eq_some.mp ho).1
    obtain ⟨leaf, sink, hty, hk⟩ := exists_sink (A.outputs o hmem) ident
    exact ⟨o, ident, leaf, sink, ho, hty, hk⟩
  obtain ⟨ws, ss₂, σ₂, ha⟩ := exists_lowersAssignments R
    (fun a ha => ⟨hn.2 a ha, value hm a ha, value ho a ha, (value A.exprs a ha).built⟩) houts hσ₁
  cases hstage : g.shader.stage with
  | fragment => exact ⟨_, lowerMain_eq_ok.mpr ⟨xs, ws, ss₁, σ₁, ss₂, σ₂, hs, ha, .inl ⟨hstage, rfl⟩⟩⟩
  | vertex =>
      have hone : g.shader.positions = 1 := by
        rw [← leafPositions_eq fun o ho => (A.outputs o ho).imp fun _ h => h.1]
        exact (A.vertex hstage).1
      exact ⟨_, lowerMain_eq_ok.mpr
        ⟨xs, ws, ss₁, σ₁, ss₂, σ₂, hs, ha, .inr ⟨hstage, hone, rfl⟩⟩⟩

theorem exists_inputVars (h : ∀ q ∈ g.shader.inputs, InputAllowed g.version q) :
    ∃ ins, g.inputVars = .ok ins := by
  simp only [inputVars_eq_ok]
  refine List.exists_forall₂ fun ⟨q, ident⟩ hmem => ?_
  obtain ⟨leaf, hty, _⟩ := h q (List.of_mem_zip hmem).1
  exact ⟨_, inputVar_eq_ok.mpr ⟨leaf, hty, rfl⟩⟩

theorem exists_outputVars (h : ∀ o ∈ g.shader.outputs, OutputAllowed g.shader.stage g.version o) :
    ∃ outs, g.outputVars = .ok outs := by
  have hvar (oi : Output × String) (hmem : oi ∈ g.outputs) :
      ∃ x?, g.outputVar? oi.1 oi.2 = .ok x? := by
    obtain ⟨leaf, sink, hty, hk⟩ := exists_sink (h oi.1 (List.of_mem_zip hmem).1) oi.2
    cases sink with
    | var name =>
        obtain rfl := name_of_sink hk
        exact ⟨_, outputVar?_eq_ok.mpr ⟨_, hk, .inl ⟨rfl, leaf, hty, rfl⟩⟩⟩
    | _ => exact ⟨_, outputVar?_eq_ok.mpr ⟨_, hk, .inr ⟨nofun, rfl⟩⟩⟩
  obtain ⟨vars, hvars⟩ := List.exists_forall₂ hvar
  exact ⟨_, outputVars_eq_ok.mpr ⟨vars, hvars, rfl⟩⟩

/-- A shader of which everything is allowed can be lowered, if externals are resolved to forms that
are used as the externals are. -/
theorem exists_lower_of_admitted {p : Program} {closure : Closure} (hg : Resolves table s.stage v)
    (hc : Closure.ofShader p s = .ok closure) (hn : WellNoted p s closure)
    (ho : OperandsFit p table v s closure)
    (hout : ∀ a ∈ s.assignments, a.output < s.outputs.length)
    (A : Admitted p table v s closure) : ∃ d, lower p s closure v table = .ok d := by
  obtain ⟨uss, huss⟩ := List.exists_forall₂ fun q hq => (A.parameters q hq).imp fun _ h => h.1
  obtain ⟨⟨i, supply⟩, hi⟩ : ∃ r, Interface.assign p s (.forShader table.nativeNames) = .ok r :=
    ⟨_, Interface.assign_eq_ok.mpr ⟨uss, huss, rfl⟩⟩
  have I := Interface.assigned_of_assign hi
  let g : Setting := ⟨p, s, v, table, i⟩
  obtain ⟨hlinear, _⟩ := Closure.ofShader_spec hc
  obtain ⟨progress, hdecls, R⟩ : ∃ progress, g.declareAll supply closure = .ok progress ∧ _ :=
    exists_declareAll hg I hlinear A.decls hn.terms ho.terms
  have hassigned (a : Assignment) (ha : a ∈ s.assignments) :
      ∃ o ident, g.outputs[a.output]? = some (o, ident) := by
    exact ⟨_, exists_output (g := g) I (List.getElem?_eq_getElem (hout a ha))⟩
  obtain ⟨main, hmain⟩ := exists_lowerMain R (Closure.mentions_subset_of_ofShader hc) hn.shader
    ho.shader A hassigned
  obtain ⟨ins, hins⟩ := exists_inputVars (g := g) A.inputs
  obtain ⟨outs, houts⟩ := exists_outputVars (g := g) A.outputs
  exact ⟨⟨s.name, v, ins, outs, g.uniformVars, progress.decls, main, s.stage⟩, lower_eq_ok.mpr
    ⟨i, supply, hi, progress, hdecls, hmain, ⟨hins, houts, rfl, rfl⟩, rfl, rfl, rfl⟩⟩

end Shader

namespace Lit

/-! The glow of a light is its level, which is rounded where it is low. The oldest versions cannot
round. -/

abbrev float : Ty := .leaf .float

def program : Program where
  records := [⟨"Light", [⟨"level", float⟩], {}⟩]
  terms := [
    ⟨"less", .external "lt" (.function [.float, .float] .bool), {}⟩,
    ⟨"round", .external "round" (.function [.float] .float), {}⟩,
    ⟨"glow", .function [⟨0, "light", .record 0⟩] float
      (.cond ⟨float, {}⟩
        (.apply ⟨.leaf .bool, {}⟩ 0
          [.field ⟨float, {}⟩ (.bound ⟨.record 0, {}⟩ 0) 0, .literal ⟨float, {}⟩ (.float ⟨0x3f800000⟩)])
        (.apply ⟨float, {}⟩ 1 [.field ⟨float, {}⟩ (.bound ⟨.record 0, {}⟩ 0) 0])
        (.field ⟨float, {}⟩ (.bound ⟨.record 0, {}⟩ 0) 0)), {}⟩]

def shader : Shader where
  name := "lit"
  stage := .vertex
  inputs := [⟨"place", .leaf .vec4, {}⟩]
  outputs := [⟨⟨"position", .leaf .vec4, {}⟩, .position⟩, ⟨⟨"glow", float, {}⟩, .varying⟩]
  parameters := [⟨"light", .record 0, {}⟩]
  assignments := [⟨0, .input ⟨.leaf .vec4, {}⟩ 0⟩,
    ⟨1, .apply ⟨float, {}⟩ 2 [.parameter ⟨.record 0, {}⟩ 0]⟩]

def closure : Closure := .placed [.record 0, .term 0, .term 1, .term 2]

end Lit

/-- A shader can be lowered for each of its versions. -/
theorem exists_lower_of_maximal {p : Program} {s : Shader} {closure : Closure} {v : Version}
    {vs : VersionSet} (hc : Closure.ofShader p s = .ok closure) (hn : WellNoted p s closure)
    (ho : OperandsFit p .standard v s closure)
    (hout : ∀ a ∈ s.assignments, a.output < s.outputs.length)
    (hvs : maximal p .standard s closure = .ok vs) (hv : vs.contains v = true) :
    ∃ d, lower p s closure v .standard = .ok d :=
  exists_lower_of_admitted (fun _ _ _ h => Table.suits_of_standard_resolve h) hc hn ho hout
    (maximal_contains_iff.mp ⟨vs, hvs, hv⟩)

open Lit in
theorem exists_lower_lit :
    maximal program .standard shader closure = .ok .universal ∧
      ∃ d, lower program shader closure (.full .v110) .standard = .ok d := by
  have hvs : maximal program .standard shader closure = .ok .universal := rfl
  have ht : WellTyped program shader closure := by decide
  have ho : OperandsFit program .standard (.full .v110) shader closure := by decide +kernel
  exact ⟨hvs, exists_lower_of_maximal rfl ht.noted ho (by decide) hvs rfl⟩

end Lowering

end ShaderDialects
