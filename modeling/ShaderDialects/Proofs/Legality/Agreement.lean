import ShaderDialects.Proofs.Legality.Declaration
import ShaderDialects.Proofs.Legality.Interface

namespace ShaderDialects

def Shader.AssignsAll (s : Shader) : Prop :=
  ∀ i < s.outputs.length, ∃ a ∈ s.assignments, a.output = i

instance (s : Shader) : Decidable s.AssignsAll :=
  inferInstanceAs (Decidable (∀ i < s.outputs.length, ∃ a ∈ s.assignments, a.output = i))

def TermKind.BuildsNoSampler : TermKind → Prop
  | external symbol signature =>
      symbol = "transpose" ∨ symbol = "inverse" → ∀ t ∈ signature.leaves, t.isSampler = false
  | _ => True

instance (k : TermKind) : Decidable k.BuildsNoSampler :=
  match k with
  | .external _ _ => inferInstanceAs (Decidable (_ → _))
  | .function _ _ _ | .value _ _ => instDecidableTrue

namespace Lowering

open Dialect (OutputWrite Stmt)
open Identifier (Supply)
open Legality

section Body

variable {g : Setting} {c : Context} {table : Table} {stage : Stage} {v : Version} {p : Program}
  {s : Shader} {σ σ' : Scope} {ss : List Stmt} {Γ : List (Nat × Ty)}

theorem LowersSteps.legal
    (hn : ∀ i form, c.terms.lookup i = some (.native form) → Available table stage v form)
    {steps : List Step} {xs : List Dialect.Expr} (h : LowersSteps g c steps σ xs ss σ')
    (ht : s.NotedSteps p Γ steps) (hu : ∀ step ∈ steps, UsesAllowed v step.expr) :
    LegalCode table stage v ss ∧ ∀ x ∈ xs, LegalExpr table stage v x := by
  induction h generalizing Γ with
  | nil => exact ⟨legalCode_nil, nofun⟩
  | bind hv _ ih =>
      obtain ⟨hvalue, hu⟩ := List.forall_mem_cons.mp hu
      obtain ⟨hhead, _⟩ := Lowers.legal hn hv ht.1 hvalue
      obtain ⟨htail, hxs⟩ := ih ht.2 hu
      exact ⟨legalCode_append.mpr ⟨hhead, htail⟩, hxs⟩
  | discard _ hc _ ih =>
      obtain ⟨hcondition, hu⟩ := List.forall_mem_cons.mp hu
      obtain ⟨hhead, hx⟩ := Lowers.legal hn hc ht.1 hcondition
      obtain ⟨htail, hxs⟩ := ih ht.2 hu
      exact ⟨legalCode_append.mpr ⟨hhead, htail⟩, List.forall_mem_cons.mpr ⟨hx, hxs⟩⟩

theorem LowersAssignments.legal
    (hn : ∀ i form, c.terms.lookup i = some (.native form) → Available table stage v form)
    {as : List Assignment} {ws : List OutputWrite} (h : LowersAssignments g c as σ ws ss σ')
    (ht : ∀ a ∈ as, a.value.Noted p s Γ) (hu : ∀ a ∈ as, UsesAllowed v a.value) :
    LegalCode table stage v ss ∧ ∀ o ∈ ws, LegalExpr table stage v o.value := by
  induction h with
  | nil => exact ⟨legalCode_nil, nofun⟩
  | cons _ _ hv _ _ ih =>
      obtain ⟨hta, ht⟩ := List.forall_mem_cons.mp ht
      obtain ⟨hvalue, hu⟩ := List.forall_mem_cons.mp hu
      obtain ⟨hhead, hx⟩ := Lowers.legal hn hv hta hvalue
      obtain ⟨htail, hxs⟩ := ih ht hu
      exact ⟨legalCode_append.mpr ⟨hhead, htail⟩, List.forall_mem_cons.mpr ⟨hx, hxs⟩⟩

variable {ds : List DeclId} (K : TypesAllowed p s v ds) (hprogram : c.program = p)
include K hprogram

theorem LowersSteps.allowed {steps : List Step} {xs : List Dialect.Expr}
    (h : LowersSteps g c steps σ xs ss σ') (ht : s.NotedSteps p Γ steps)
    (hm : ∀ step ∈ steps, ∀ d ∈ step.expr.mentions, d ∈ ds)
    (hΓ : ∀ id ty, Γ.lookup id = some ty → TyAllowed v ty) (hcode : LegalCode table stage v ss)
    (hxs : ∀ x ∈ xs, LegalExpr table stage v x) :
    (∀ step ∈ steps, ExprAllowed p v step.expr) ∧
      ∀ id ty, (steps.foldl Step.extend Γ).lookup id = some ty → TyAllowed v ty := by
  induction h generalizing Γ with
  | nil => exact ⟨nofun, hΓ⟩
  | @bind b value steps xs σ σ₁ σ₂ ss₁ ss₂ hv _ ih =>
      obtain ⟨hhead, htail⟩ := legalCode_append.mp hcode
      obtain ⟨hmv, hm⟩ := List.forall_mem_cons.mp hm
      have hvalue : ExprAllowed p v value :=
        Lowers.allowed K hprogram hv ht.1 hmv hΓ hhead trivial
      have hΓ' (id : Nat) (ty : Ty) (hty : List.lookup id ((b.id, b.ty) :: Γ) = some ty) :
          TyAllowed v ty := by
        rcases lookup_cons_eq_some hty with ⟨_, rfl⟩ | hty
        · exact ht.1.2 ▸ ExprAllowed.ty hvalue
        · exact hΓ id ty hty
      obtain ⟨hsteps, hfinal⟩ := ih ht.2 hm hΓ' htail hxs
      exact ⟨List.forall_mem_cons.mpr ⟨hvalue, hsteps⟩, hfinal⟩
  | @discard condition span steps x xs σ σ₁ σ₂ ss₁ ss₂ _ hc _ ih =>
      obtain ⟨hhead, htail⟩ := legalCode_append.mp hcode
      obtain ⟨hx, hxs⟩ := List.forall_mem_cons.mp hxs
      obtain ⟨hmc, hm⟩ := List.forall_mem_cons.mp hm
      have hcondition : ExprAllowed p v condition :=
        Lowers.allowed K hprogram hc ht.1 hmc hΓ hhead hx
      obtain ⟨hsteps, hfinal⟩ := ih ht.2 hm hΓ htail hxs
      exact ⟨List.forall_mem_cons.mpr ⟨hcondition, hsteps⟩, hfinal⟩

theorem LowersAssignments.allowed {as : List Assignment} {ws : List OutputWrite}
    (h : LowersAssignments g c as σ ws ss σ') (ht : ∀ a ∈ as, a.value.Noted p s Γ)
    (hm : ∀ a ∈ as, ∀ d ∈ a.value.mentions, d ∈ ds)
    (hΓ : ∀ id ty, Γ.lookup id = some ty → TyAllowed v ty) (hcode : LegalCode table stage v ss)
    (hws : ∀ o ∈ ws, LegalExpr table stage v o.value) : ∀ a ∈ as, ExprAllowed p v a.value := by
  induction h with
  | nil => exact nofun
  | cons _ _ hv _ _ ih =>
      obtain ⟨hhead, htail⟩ := legalCode_append.mp hcode
      obtain ⟨hx, hws⟩ := List.forall_mem_cons.mp hws
      obtain ⟨hta, ht⟩ := List.forall_mem_cons.mp ht
      obtain ⟨hma, hm⟩ := List.forall_mem_cons.mp hm
      exact List.forall_mem_cons.mpr
        ⟨Lowers.allowed K hprogram hv hta hma hΓ hhead hx, ih ht hm htail hws⟩

end Body

section Shader

variable {g : Setting} {c : Context} {p : Program} {s : Shader} {closure : Closure} {v : Version}
  {table : Table} {d : Dialect.Shader}

theorem LowersAssignments.assigned {σ σ' : Scope} {ws : List OutputWrite} {ss : List Stmt}
    (h : LowersAssignments g c g.shader.assignments σ ws ss σ') (ha : g.shader.AssignsAll)
    {k : Nat} {o : Output} {ident : String} (ho : g.outputs[k]? = some (o, ident)) :
    ∃ a ∈ g.shader.assignments, a.output = k ∧
      ∃ w ∈ ws, o.ty = .leaf w.leaf ∧ g.sink o ident = .ok w.sink := by
  have hk : k < g.shader.outputs.length :=
    (List.getElem?_eq_some_iff.mp (List.getElem?_zip_eq_some.mp ho).1).1
  obtain ⟨a, hmem, rfl⟩ := ha k hk
  obtain ⟨j, hj⟩ := List.mem_iff_getElem?.mp hmem
  obtain ⟨w, hw, o', ident', ho', ht, hs⟩ := h.writes.getElem?_right hj
  cases ho.symm.trans ho'
  exact ⟨a, hmem, rfl, w, List.mem_of_getElem? hw, ht, hs⟩

/-- A shader of which everything is allowed is lowered to one that conforms, if the types of its
inputs are allowed as well. -/
theorem conforms_of_admitted (hd : lower p s closure v table = .ok d) (ht : WellNoted p s closure)
    (A : Admitted p table v s closure) (hassign : s.AssignsAll)
    (hout : ∀ a ∈ s.assignments, s.outputs[a.output]?.map (fun o => o.ty) = some a.value.ty)
    (hb : ∀ form ∈ Emulation.basis, Available table s.stage v form)
    (hc : ∀ decl ∈ closure.order, ConstructorsAvailable p table s.stage v decl)
    (hin : ∀ q ∈ s.inputs, TyAllowed v q.ty) : Conforms table d := by
  obtain ⟨i, supply, hi, progress, hdecls, hmain, P, _, hv, hdd⟩ := lower_eq_ok.mp hd
  have hstage : d.stage = s.stage := P.stage
  have L := legal_declareAll hdecls A.decls ht.terms hb hc
  have hsteps (step : Step) (h : step ∈ s.steps) : ExprAllowed p v step.expr :=
    A.exprs _ (List.mem_append_left _ (List.mem_map_of_mem h))
  have hvalues (a : Assignment) (h : a ∈ s.assignments) : ExprAllowed p v a.value :=
    A.exprs _ (List.mem_append_right _ (List.mem_map_of_mem h))
  obtain ⟨ss₁, σ, ss₂, σ', hs, ha, hbody⟩ := lowerMain_parts hmain
  obtain ⟨hcode₁, hdiscards⟩ := hs.legal L.natives ht.shader.1 fun step h => (hsteps step h).uses
  obtain ⟨hcode₂, hwrites⟩ := ha.legal L.natives ht.shader.2 fun a h => (hvalues a h).uses
  have hmem {k : Nat} {o : Output} {ident : String}
      (ho : (Setting.mk p s v table i).outputs[k]? = some (o, ident)) : o ∈ s.outputs :=
    List.mem_of_getElem? (List.getElem?_zip_eq_some.mp ho).1
  refine ⟨fun x hx => ?_, fun x hx => ?_, ?_, fun w hw => ?_, ?_, ?_, ?_, ?_⟩
  all_goals rw [hv]
  · obtain ⟨q, hq, ident, hvar⟩ := P.input_of_mem hx
    obtain ⟨leaf, hty, rfl⟩ := inputVar_eq_ok.mp hvar
    rw [hstage]
    exact (variableRule_input hvar).mpr ⟨A.inputs q hq, hin q hq leaf hty⟩
  · obtain ⟨k, o, ident, ho, hvar⟩ := P.mem_outputs.mp hx
    obtain ⟨a, has, rfl, w, _, hty, hsink⟩ := ha.assigned hassign ho
    obtain ⟨_, hvars⟩ := (outputAllowed_iff (hmem ho) hty hsink).mp (A.outputs o (hmem ho))
    obtain ⟨hinterface, hstorage⟩ := hvars x hvar
    -- The version has the type of the output since it has that of the value it is assigned.
    have hvalue : o.ty = a.value.ty := by
      simpa [(List.getElem?_zip_eq_some.mp ho).1] using hout a has
    have hx : x.leaf = w.leaf := leaf_of_outputVar? hty hvar
    rw [hstage]
    refine variableRule_eq_none.mpr ⟨hinterface, ?_, hstorage⟩
    rw [hx]
    exact ExprAllowed.ty (hvalues a has) w.leaf (hvalue.symm.trans hty)
  · rw [P.uniforms]
    exact (uniformVars_legal (Interface.assigned_of_assign hi)).mpr A.parameters
  · obtain ⟨k, hk⟩ := List.mem_iff_getElem?.mp hw
    obtain ⟨a, has, o, ident, ho, hty, hsink⟩ := ha.writes.getElem?_left hk
    exact ((outputAllowed_iff (hmem ho) hty hsink).mp (A.outputs o (hmem ho))).1
  · rw [hdd, hstage]
    exact L.decls
  · rw [hbody, hstage]
    exact legalCode_append.mpr ⟨hcode₁, hcode₂⟩
  · rw [hstage]
    exact hdiscards
  · rw [hstage]
    exact hwrites

/-- A shader whose outputs are leaves has as many positions as are leaves. -/
theorem leafPositions_eq {s : Shader} (h : ∀ o ∈ s.outputs, ∃ t, o.ty = .leaf t) :
    Construct.leafPositions s = s.positions := by
  rw [Construct.leafPositions, Shader.positions]
  refine List.countP_congr fun o ho => ?_
  obtain ⟨t, ht⟩ := h o ho
  simp [ht, Ty.leaf?]

theorem input_of_conforms (hd : lower p s closure v table = .ok d) (C : Conforms table d) {q : Slot}
    (hq : q ∈ s.inputs) : InputAllowed v q ∧ TyAllowed v q.ty := by
  obtain ⟨i, supply, hi, progress, _, _, P, _, rfl, _⟩ := lower_eq_ok.mp hd
  have hstage : d.stage = s.stage := P.stage
  obtain ⟨x, hx, ident, hvar⟩ := P.mem_of_input (Interface.assigned_of_assign hi).inputs hq
  have hrule := C.inputs x hx
  rw [hstage] at hrule
  obtain ⟨hq, hleaf⟩ := (variableRule_input hvar).mp hrule
  obtain ⟨leaf, hty, rfl⟩ := inputVar_eq_ok.mp hvar
  refine ⟨hq, fun t ht => ?_⟩
  cases hty.symm.trans ht
  exact hleaf

/-- A shader that is lowered to one that conforms is made of nothing but what is allowed, if the
signatures of its externals are. -/
theorem admitted_of_conforms (hc : Closure.ofShader p s = .ok closure)
    (hd : lower p s closure v table = .ok d) (ht : WellNoted p s closure) (C : Conforms table d)
    (hassign : s.AssignsAll) (hsig : closure.AllTerms p fun t => SignatureAllowed v t.kind) :
    Admitted p table v s closure := by
  obtain ⟨i, supply, hi, progress, hdecls, hmain, P, _, rfl, hdd⟩ := lower_eq_ok.mp hd
  have I := Interface.assigned_of_assign hi
  have hstage : d.stage = s.stage := P.stage
  have hm := Closure.mentions_subset_of_ofShader hc
  obtain ⟨ss₁, σ, ss₂, σ', hs, ha, hbody⟩ := lowerMain_parts hmain
  have hparams := (uniformVars_legal I).mp (P.uniforms ▸ C.uniforms)
  have hins (q : Slot) (hq : q ∈ s.inputs) := input_of_conforms hd C hq
  have hlegal : ∀ decl ∈ progress.decls, LegalDecl table s.stage d.version decl.kind := by
    rw [← hdd, ← hstage]
    exact C.decls
  have K : TypesAllowed p s d.version closure.order := by
    refine typesAllowed_of_legal hdecls hlegal hsig (fun q hq => (hins q hq).2) fun q hq => ?_
    obtain ⟨us, hus, hl⟩ := hparams q hq
    exact tyAllowed_of_flatten hus hl
  have hcode := C.body
  rw [hbody] at hcode
  obtain ⟨hcode₁, hcode₂⟩ := legalCode_append.mp hcode
  obtain ⟨hsteps, hΓ⟩ := hs.allowed K rfl ht.shader.1
    (fun step h => hm _ (List.mem_append_left _ (List.mem_map_of_mem h))) (by simp) hcode₁ C.discards
  have hvalues := ha.allowed K rfl ht.shader.2
    (fun a h => hm _ (List.mem_append_right _ (List.mem_map_of_mem h))) hΓ hcode₂ C.values
  have houts (o : Output) (ho : o ∈ s.outputs) : OutputAllowed s.stage d.version o := by
    obtain ⟨k, hk⟩ := List.mem_iff_getElem?.mp ho
    obtain ⟨ident, ho⟩ := exists_output (g := ⟨p, s, d.version, table, i⟩) I hk
    obtain ⟨a, has, rfl, w, hw, hty, hsink⟩ := ha.assigned hassign ho
    have hmem : o ∈ s.outputs := List.mem_of_getElem? (List.getElem?_zip_eq_some.mp ho).1
    refine (outputAllowed_iff hmem hty hsink).mpr ⟨C.writes w hw, fun x hx => ?_⟩
    have hrule := C.outputs x (P.mem_outputs.mpr ⟨_, o, ident, ho, hx⟩)
    rw [hstage] at hrule
    obtain ⟨hinterface, _, hstorage⟩ := variableRule_eq_none.mp hrule
    exact ⟨hinterface, hstorage⟩
  refine ⟨fun q hq => (hins q hq).1, houts, fun hvertex => ⟨?_, fun c span hmem => ?_⟩, hparams,
    List.forall_mem_append.mpr ⟨List.forall_mem_map.mpr hsteps, List.forall_mem_map.mpr hvalues⟩,
    fun decl hmem =>
      declAllowed_of_legal hdecls hlegal hsig K (Closure.ofShader_spec hc).1 ht.terms hmem⟩
  · rw [leafPositions_eq fun o ho => (houts o ho).imp fun _ h => h.1]
    obtain ⟨_, _, _, _, _, _, _, _, ⟨hf, _⟩ | ⟨_, hone, _⟩⟩ := lowerMain_eq_ok.mp hmain
    · cases hvertex.symm.trans hf
    · exact hone
  · cases hvertex.symm.trans (hs.fragment hmem)

theorem tyAllowed_input_iff {q : Slot} (h : InputAllowed v q) :
    TyAllowed v q.ty ↔ v.isSince .v300 .v120 = true ∨ ∀ t ∈ q.ty.leaf?, t.isNonSquare = false := by
  obtain ⟨t, hty, _, hinteger⟩ := h
  simp only [TyAllowed, hty, Ty.leaf.injEq, forall_eq', leafRule_eq_none, Ty.leaf?,
    Option.mem_some_iff]
  rw [and_iff_right fun hu => isSince_of_integerRule hinteger hu]
  cases t.isNonSquare <;> simp

theorem constructorsAvailable_of_noSamplers {stage : Stage}
    (h : closure.AllTerms p fun t => t.kind.BuildsNoSampler) :
    ∀ decl ∈ closure.order, ConstructorsAvailable p .standard stage v decl := by
  rintro _ hmem i t symbol signature e rfl ht hk hresolve hleaves
  obtain ⟨hlisted, -, hsymbol⟩ := Table.suits_of_standard_resolve hresolve
  refine ⟨hlisted, fun leaf hleaf => ?_⟩
  have hsamplers := h i t hmem ht
  simp only [hk, TermKind.BuildsNoSampler] at hsamplers
  cases e with
  | transpose =>
      cases hleaf
      have hr := result_mem signature
      exact constructor_available (hsamplers (.inl hsymbol) _ hr) (hleaves _ hr)
  | inverse =>
      cases hleaf
      have hr := paramLeaf_mem signature 0
      exact constructor_available (hsamplers (.inr hsymbol) _ hr) (hleaves _ hr)
  | _ => cases hleaf

end Shader

namespace Framed

/-! A matrix is transposed, which the oldest versions lack. Another one is not read, as is the only
matrix of the plain shader. -/

abbrev vec4 : Ty := .leaf .vec4

abbrev square : Leaf := .matrix .two .two

def program : Program where
  terms := [⟨"transpose", .external "transpose" (.function [square] square), {}⟩]

def shader (frame : Leaf) : Shader where
  name := "framed"
  stage := .vertex
  inputs := [⟨"place", vec4, {}⟩, ⟨"tilt", .leaf square, {}⟩, ⟨"frame", .leaf frame, {}⟩]
  outputs := [⟨⟨"position", vec4, {}⟩, .position⟩, ⟨⟨"turn", .leaf square, {}⟩, .varying⟩]
  assignments := [⟨0, .input ⟨vec4, {}⟩ 0⟩,
    ⟨1, .apply ⟨.leaf square, {}⟩ 0 [.input ⟨.leaf square, {}⟩ 1]⟩]

def closure : Closure := .placed [.term 0]

def plain : Shader where
  name := "plain"
  stage := .vertex
  inputs := [⟨"place", vec4, {}⟩, ⟨"frame", .leaf (.matrix .two .three), {}⟩]
  outputs := [⟨⟨"position", vec4, {}⟩, .position⟩]
  assignments := [⟨0, .input ⟨vec4, {}⟩ 0⟩]

end Framed

/-- A shader for one of its versions is lowered to one that passes the check, unless an input is a
non-square matrix and the version has none. -/
theorem checkLowered_ok_iff_square_inputs {p : Program} {s : Shader} {closure : Closure}
    {v : Version} {vs : VersionSet} {d : Dialect.Shader} (ht : WellTyped p s closure)
    (ha : s.AssignsAll) (hs : closure.AllTerms p fun t => t.kind.BuildsNoSampler)
    (hvs : maximal p .standard s closure = .ok vs) (hv : vs.contains v = true)
    (hd : lower p s closure v .standard = .ok d) :
    checkLowered .standard d = .ok () ↔ v.isSince .v300 .v120 = true ∨
      ∀ q ∈ s.inputs, ∀ t ∈ q.ty.leaf?, t.isNonSquare = false := by
  have A : Admitted p .standard v s closure := maximal_contains_iff.mp ⟨vs, hvs, hv⟩
  have hinputs : (∀ q ∈ s.inputs, TyAllowed v q.ty) ↔ v.isSince .v300 .v120 = true ∨
      ∀ q ∈ s.inputs, ∀ t ∈ q.ty.leaf?, t.isNonSquare = false := by
    cases hsince : v.isSince .v300 .v120 with
    | true => simpa using fun q hq => (tyAllowed_input_iff (A.inputs q hq)).mpr (.inl hsince)
    | false =>
        simp only [Bool.false_eq_true, false_or]
        exact forall₂_congr fun q hq => (tyAllowed_input_iff (A.inputs q hq)).trans (by simp [hsince])
  rw [checkLowered_eq_ok, ← hinputs]
  constructor
  · exact fun C q hq => (input_of_conforms hd C hq).2
  · exact conforms_of_admitted hd ht.noted A ha (fun a h => (ht.shader.2 a h).2)
      (fun _ => basis_available) (constructorsAvailable_of_noSamplers hs)

open Framed in
theorem checkLowered_ok_framed :
    ∃ d, lower program (shader square) closure (.full .v110) .standard = .ok d ∧
      checkLowered .standard d = .ok () := by
  have hvs : maximal program .standard (shader square) closure = .ok .universal := rfl
  obtain ⟨d, hd⟩ : ∃ d, lower program (shader square) closure (.full .v110) .standard = .ok d :=
    Except.exists_eq_ok_of_isOk (by decide +kernel)
  refine ⟨d, hd, ?_⟩
  refine (checkLowered_ok_iff_square_inputs (by decide) (by decide) (by decide) hvs rfl hd).mpr ?_
  exact .inr (by decide)

open Framed in
/-- A version that has no non-square matrices is one of a shader that declares one as an input and
does not read it; what the shader is lowered to is rejected. -/
theorem checkLowered_rejects_unread_input :
    Closure.ofShader {} plain = .ok (.placed []) ∧ WellTyped {} plain (.placed []) ∧
      UniqueBinders {} plain (.placed []) ∧ plain.AssignsAll ∧
      maximal {} .standard plain (.placed []) = .ok .universal ∧
      ∃ d, lower {} plain (.placed []) (.full .v110) .standard = .ok d ∧
        checkLowered .standard d ≠ .ok () := by
  obtain ⟨d, hd⟩ : ∃ d, lower {} plain (.placed []) (.full .v110) .standard = .ok d :=
    Except.exists_eq_ok_of_isOk (by decide +kernel)
  refine ⟨rfl, by decide, by decide, by decide, rfl, d, hd, fun hok => ?_⟩
  have hframe : ⟨"frame", .leaf (.matrix .two .three), {}⟩ ∈ plain.inputs := by simp [plain]
  obtain ⟨_, hty⟩ := input_of_conforms hd (checkLowered_eq_ok.mp hok) hframe
  exact absurd (hty _ rfl) (by decide)

/-- The check before lowering is no stricter than that after it: a version for which a shader is
lowered to one that passes is one of the shader's. -/
theorem maximal_contains_of_checkLowered {p : Program} {s : Shader} {closure : Closure}
    {v : Version} {table : Table} {d : Dialect.Shader} (hc : Closure.ofShader p s = .ok closure)
    (ht : WellNoted p s closure) (ha : s.AssignsAll)
    (hsig : closure.AllTerms p fun t => SignatureAllowed v t.kind)
    (hd : lower p s closure v table = .ok d) (hok : checkLowered table d = .ok ()) :
    ∃ vs, maximal p table s closure = .ok vs ∧ vs.contains v = true :=
  maximal_contains_iff.mpr (admitted_of_conforms hc hd ht (checkLowered_eq_ok.mp hok) ha hsig)

open Framed in
theorem maximal_contains_framed :
    ∃ d vs, lower program (shader square) closure (.full .v110) .standard = .ok d ∧
      checkLowered .standard d = .ok () ∧
      maximal program .standard (shader square) closure = .ok vs ∧
      vs.contains (.full .v110) = true := by
  obtain ⟨d, hd, hcheck⟩ : ∃ d,
      lower program (shader square) closure (.full .v110) .standard = .ok d ∧
        (checkLowered .standard d).isOk = true :=
    Except.exists_eq_ok_of_toOption_map (by decide +kernel)
  obtain ⟨⟨⟩, hok⟩ := Except.exists_eq_ok_of_isOk hcheck
  have ht : WellTyped program (shader square) closure := by decide
  obtain ⟨vs, hvs, hv⟩ :=
    maximal_contains_of_checkLowered rfl ht.noted (by decide) (by decide) hd hok
  exact ⟨d, vs, hd, hok, hvs, hv⟩

end Lowering

end ShaderDialects
