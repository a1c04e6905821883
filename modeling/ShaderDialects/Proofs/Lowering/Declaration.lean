import ShaderDialects.Lowering.Shader
import ShaderDialects.Proofs.Lowering.Context
import ShaderDialects.Proofs.Lowering.Scope
import ShaderDialects.Proofs.Source.Notes

namespace ShaderDialects.Lowering

open Dialect (Stmt Variable)
open Identifier (Supply)

namespace Scope

def bindParams (σ : Scope) : List Binding → List String × Scope
  | [] => ([], σ)
  | b :: bs =>
      let rest := ((σ.fresh b.name).2.bind b.id (σ.fresh b.name).1).bindParams bs
      ((σ.fresh b.name).1 :: rest.1, rest.2)

variable {σ : Scope} {bs : List Binding}

theorem bindParams_names (σ : Scope) (bs : List Binding) :
    (σ.bindParams bs).1 = σ.supply.names Binding.name bs := by
  induction bs generalizing σ with
  | nil => rfl
  | cons b bs ih =>
      rw [bindParams, Supply.names_cons, ih]
      rfl

theorem bindParams_supply (σ : Scope) (bs : List Binding) :
    (σ.bindParams bs).2.supply = (σ.supply.freshAll Binding.name bs).2 := by
  induction bs generalizing σ with
  | nil => rfl
  | cons b bs ih => exact ih _

theorem lookup_bindParams_of_not_mem {id : Nat} (h : id ∉ bs.map Binding.id) :
    (σ.bindParams bs).2.locals.lookup id = σ.locals.lookup id := by
  induction bs generalizing σ with
  | nil => rfl
  | cons b bs ih =>
      obtain ⟨hb, hbs⟩ := not_or.mp (mt List.mem_cons.mpr h)
      rw [bindParams, ih hbs, lookup_bind_of_ne hb]
      rfl

theorem lookup_bindParams (hn : (bs.map Binding.id).Nodup) {k : Nat} {b : Binding} {name : String}
    (hb : bs[k]? = some b) (hname : (σ.bindParams bs).1[k]? = some name) :
    (σ.bindParams bs).2.locals.lookup b.id = some name := by
  induction bs generalizing σ k with
  | nil => simp at hb
  | cons b' bs ih =>
      obtain ⟨hid, hn⟩ := List.nodup_cons.mp hn
      cases k with
      | zero =>
          obtain rfl : b' = b := by simpa using hb
          obtain rfl : (σ.fresh b'.name).1 = name := by simpa [bindParams] using hname
          rw [bindParams, lookup_bindParams_of_not_mem hid, lookup_bind_self]
      | succ k => exact ih hn hb hname

end Scope

namespace Setting

variable {g : Setting} {c : Context}

theorem lowerFields_eq_ok {supply : Supply} {fields : List Field} {vars : List Variable} :
    lowerFields c supply fields = .ok vars ↔
      ∃ tys, List.Forall₂ (fun f t => c.ty f.ty = .ok t) fields tys ∧
        List.zipWith Variable.mk (supply.names Field.name fields) tys = vars := by
  induction fields generalizing supply vars with
  | nil => simp [lowerFields, List.forall₂_nil_left_iff, eq_comm]
  | cons f fields ih =>
      simp only [lowerFields, Except.bind_eq_ok, Except.pure_eq_ok, ih,
        List.forall₂_cons_left_iff]
      constructor
      · rintro ⟨t, ht, _, ⟨tys, htys, rfl⟩, rfl⟩
        exact ⟨t :: tys, ⟨t, tys, ht, htys, rfl⟩, rfl⟩
      · rintro ⟨_, ⟨t, tys, ht, htys, rfl⟩, rfl⟩
        exact ⟨t, ht, _, ⟨tys, htys, rfl⟩, rfl⟩

theorem run_lowerParam_eq_ok {b : Binding} {σ : Scope} {r : Emitted Variable} :
    (lowerParam c b).run σ = .ok r ↔ ∃ t, c.ty b.ty = .ok t ∧
      ⟨⟨(σ.fresh b.name).1, t⟩, [], (σ.fresh b.name).2.bind b.id (σ.fresh b.name).1⟩ = r := by
  have hf : (Emit.fresh b.name).run σ = .ok ⟨(σ.fresh b.name).1, [], (σ.fresh b.name).2⟩ := rfl
  have hb (σ : Scope) (name : String) :
      (Emit.bindLocal b.id name).run σ = .ok ⟨(), [], σ.bind b.id name⟩ := rfl
  simp [lowerParam, Emit.run_bind_eq_ok, Emit.run_ofExcept_eq_ok, Emit.run_pure, hf, hb]

theorem run_lowerParams_eq_ok {params : List Binding} {σ : Scope} {r : Emitted (List Variable)} :
    (lowerParams c params).run σ = .ok r ↔
      ∃ tys, List.Forall₂ (fun b t => c.ty b.ty = .ok t) params tys ∧
        ⟨List.zipWith Variable.mk (σ.bindParams params).1 tys, [], (σ.bindParams params).2⟩ = r := by
  induction params generalizing σ r with
  | nil => simp [lowerParams, Emit.run_pure, List.forall₂_nil_left_iff, Scope.bindParams]
  | cons b params ih =>
      simp only [lowerParams, Emit.run_bind_eq_ok, Emit.run_pure, Except.ok.injEq,
        run_lowerParam_eq_ok, ih, List.forall₂_cons_left_iff]
      constructor
      · rintro ⟨_, ⟨t, ht, rfl⟩, _, ⟨_, ⟨tys, htys, rfl⟩, _, rfl, rfl⟩, rfl⟩
        exact ⟨t :: tys, ⟨t, tys, ht, htys, rfl⟩, rfl⟩
      · rintro ⟨_, ⟨t, tys, ht, htys, rfl⟩, rfl⟩
        exact ⟨_, ⟨t, ht, rfl⟩, _, ⟨_, ⟨tys, htys, rfl⟩, _, rfl, rfl⟩, rfl⟩

theorem run_lowerFunction_eq_ok {params : List Binding} {result : Ty} {body : Expr} {σ : Scope}
    {r : Emitted (List Variable × Dialect.Ty)} :
    (lowerFunction c params result body).run σ = .ok r ↔
      ∃ tys, List.Forall₂ (fun b t => c.ty b.ty = .ok t) params tys ∧
        ∃ rt, c.ty result = .ok rt ∧ ∃ ss σ',
          Lowers c (.into body .result) (σ.bindParams params).2 ss σ' ∧
            ⟨(List.zipWith Variable.mk (σ.bindParams params).1 tys, rt), ss, σ'⟩ = r := by
  simp only [lowerFunction, Emit.run_bind_eq_ok, Emit.run_pure, Except.ok.injEq,
    Emit.run_ofExcept_eq_ok, run_lowerParams_eq_ok]
  constructor
  · rintro ⟨_, ⟨tys, htys, rfl⟩, _, ⟨_, ⟨rt, hrt, rfl⟩, _, ⟨⟨⟨⟩, ss, σ'⟩, hb, _, rfl, rfl⟩, rfl⟩, rfl⟩
    exact ⟨tys, htys, rt, hrt, ss, σ', lowers_iff_runs.mpr hb, by simp⟩
  · rintro ⟨tys, htys, rt, hrt, ss, σ', hb, rfl⟩
    exact ⟨_, ⟨tys, htys, rfl⟩, _, ⟨_, ⟨rt, hrt, rfl⟩, _, ⟨_, hb.runs, _, rfl, rfl⟩, rfl⟩, by simp⟩

end Setting

/-- A user term: how it is referred to once it has a name, and the function it is lowered to. -/
structure Routine where
  form : String → TermForm
  params : List Binding
  result : Ty
  body : Expr

def Routine.ofKind? : TermKind → Option Routine
  | .function params result body => some ⟨.function, params, result, body⟩
  | .value ty body => some ⟨.value, [], ty, body⟩
  | .external _ _ => none

theorem lookup_params_eq_some {params : List Binding} {id : Nat} {ty : Ty}
    (h : (params.map fun b => (b.id, b.ty)).lookup id = some ty) :
    ∃ (k : Nat) (b : Binding), params[k]? = some b ∧ b.id = id ∧ b.ty = ty := by
  induction params with
  | nil => simp at h
  | cons b params ih =>
      rcases lookup_cons_eq_some h with ⟨rfl, rfl⟩ | h
      · exact ⟨0, b, rfl, rfl, rfl⟩
      · obtain ⟨k, b', hb, hid, hty⟩ := ih h
        exact ⟨k + 1, b', hb, hid, hty⟩

namespace Routine

variable {k : TermKind} {r : Routine} (hr : ofKind? k = some r)
include hr

theorem typed {p : Program} {s : Shader} (h : k.Typed p s) :
    r.body.Typed p s (r.params.map fun b => (b.id, b.ty)) ∧ r.body.ty = r.result := by
  cases k with
  | function params result body | value ty body =>
      cases hr
      exact h
  | external symbol signature => cases hr

theorem noted {p : Program} {s : Shader} (h : k.Noted p s) :
    r.body.Noted p s (r.params.map fun b => (b.id, b.ty)) := by
  cases k with
  | function params result body | value ty body =>
      cases hr
      exact h
  | external symbol signature => cases hr

theorem binders : k.binders = r.params.map Binding.id ++ r.body.binders := by
  cases k with
  | function params result body | value ty body =>
      cases hr
      rfl
  | external symbol signature => cases hr

theorem mentions :
    k.mentions = r.params.flatMap (fun b => b.ty.mentions) ++ r.result.mentions
      ++ r.body.mentions := by
  cases k with
  | function params result body | value ty body =>
      cases hr
      rfl
  | external symbol signature => cases hr

theorem valid {p : Program} {s : Shader} {ds : List DeclId} (ht : k.Typed p s)
    (hu : k.binders.Nodup) (hm : ∀ d ∈ k.mentions, d ∈ ds) :
    r.body.Valid p s ds (r.params.map fun b => (b.id, b.ty)) := by
  rw [binders hr] at hu
  obtain ⟨_, hbody, hne⟩ := List.nodup_append.mp hu
  refine ⟨(typed hr ht).1, hbody, fun id hid => ?_, fun d hd => hm d ?_⟩
  · cases hl : (r.params.map fun b => (b.id, b.ty)).lookup id with
    | none => rfl
    | some ty =>
        obtain ⟨k, b, hb, rfl, _⟩ := lookup_params_eq_some hl
        exact absurd rfl (hne _ (List.mem_map_of_mem (List.mem_of_getElem? hb)) _ hid)
  · rw [mentions hr]
    exact List.mem_append_right _ hd

end Routine

def Progress.routineScope (s : Progress) (t : Term) (r : Routine) : List String × Scope :=
  Scope.bindParams ⟨(s.supply.fresh t.name).2, []⟩ r.params

theorem length_routineScope (s : Progress) (t : Term) (r : Routine) :
    (s.routineScope t r).1.length = r.params.length := by
  simp [Progress.routineScope, Scope.bindParams_names]

theorem gives_routineScope (s : Progress) (t : Term) (r : Routine) :
    (s.supply.fresh t.name).2.Gives (s.routineScope t r).1 (s.routineScope t r).2.supply := by
  rw [Progress.routineScope, Scope.bindParams_names, Scope.bindParams_supply]
  exact Supply.gives_freshAll Binding.name r.params

/-- `Declares g s d s'`: what is lowered for `d` after `s` makes it `s'`. -/
inductive Declares (g : Setting) (s : Progress) : DeclId → Progress → Prop where
  | record {i r tys} (hr : g.program.records[i]? = some r)
      (ht : List.Forall₂ (fun f t => (g.context s).ty f.ty = .ok t) r.fields tys) :
      Declares g s (.record i) { s with
        supply := (s.supply.fresh r.name).2
        structs := (i, ⟨(s.supply.fresh r.name).1, g.program.fieldNames i⟩) :: s.structs
        decls := s.decls ++ [⟨(s.supply.fresh r.name).1, .record i r.name,
          .struct (List.zipWith Variable.mk (g.program.fieldNames i) tys)⟩] }
  | routine {i t r tys rt ss σ} (ht : g.program.terms[i]? = some t)
      (hr : Routine.ofKind? t.kind = some r)
      (hp : List.Forall₂ (fun b t => (g.context s).ty b.ty = .ok t) r.params tys)
      (hres : (g.context s).ty r.result = .ok rt)
      (hb : Lowers (g.context s) (.into r.body .result) (s.routineScope t r).2 ss σ) :
      Declares g s (.term i) { s with
        supply := σ.supply
        terms := (i, r.form (s.supply.fresh t.name).1) :: s.terms
        decls := s.decls ++ [⟨(s.supply.fresh t.name).1, .term i t.name,
          .function (List.zipWith Variable.mk (s.routineScope t r).1 tys) rt ss⟩] }
  | native {i t symbol signature form} (ht : g.program.terms[i]? = some t)
      (hk : t.kind = .external symbol signature)
      (hd : g.table.resolve symbol signature.kind g.version g.shader.stage = .ok (.native form)) :
      Declares g s (.term i) { s with terms := (i, .native form) :: s.terms }
  | emulation {i t symbol signature e} (ht : g.program.terms[i]? = some t)
      (hk : t.kind = .external symbol signature)
      (hd : g.table.resolve symbol signature.kind g.version g.shader.stage = .ok (.emulated e)) :
      Declares g s (.term i) (Setting.declareEmulation s i t symbol (e.build signature))

section Declares

variable {g : Setting} {s s' : Progress}

theorem map_name_zipWith {names : List String} {tys : List Dialect.Ty}
    (h : names.length = tys.length) :
    (List.zipWith Variable.mk names tys).map Variable.name = names := by
  induction names generalizing tys with
  | nil => rfl
  | cons n names ih =>
      cases tys with
      | nil => simp at h
      | cons t tys => simpa using ih (by simpa using h)

theorem declareRecord_eq_ok {i : Nat} :
    g.declareRecord s i = .ok s' ↔ Declares g s (.record i) s' := by
  have names {r : Record} (hr : g.program.records[i]? = some r) :
      g.program.fieldNames i = Supply.forFields.names Field.name r.fields := by
    simp [Program.fieldNames, hr]
  rw [Setting.declareRecord, Except.bind_eq_ok]
  simp only [Except.mapError_eq_ok, Program.record_eq_ok, Except.bind_eq_ok,
    Setting.lowerFields_eq_ok, Except.pure_eq_ok]
  constructor
  · rintro ⟨r, hr, _, ⟨tys, ht, rfl⟩, rfl⟩
    rw [map_name_zipWith (by simpa using ht.length_eq), ← names hr]
    exact .record hr ht
  · rintro ⟨hr, ht⟩
    refine ⟨_, hr, _, ⟨_, ht, rfl⟩, ?_⟩
    rw [map_name_zipWith (by simpa using ht.length_eq), ← names hr]

theorem declareFunction_eq_ok {i : Nat} {t : Term} (ht : g.program.terms[i]? = some t)
    {r : Routine} (hr : Routine.ofKind? t.kind = some r) :
    g.declareFunction s i t r.form r.params r.result r.body = .ok s' ↔
      Declares g s (.term i) s' := by
  rw [Setting.declareFunction, Except.bind_eq_ok]
  simp only [Setting.run_lowerFunction_eq_ok, Except.pure_eq_ok]
  constructor
  · rintro ⟨_, ⟨tys, hp, rt, hres, ss, σ, hb, rfl⟩, rfl⟩
    exact .routine ht hr hp hres hb
  · intro h
    cases h with
    | routine ht' hr' hp hres hb =>
        cases ht.symm.trans ht'
        cases hr.symm.trans hr'
        exact ⟨_, ⟨_, hp, _, hres, _, _, hb, rfl⟩, rfl⟩
    | native ht' hk | emulation ht' hk =>
        cases ht.symm.trans ht'
        simp [hk, Routine.ofKind?] at hr

theorem declareExternal_eq_ok {i : Nat} {t : Term} (ht : g.program.terms[i]? = some t)
    {symbol : String} {signature : Signature} (hk : t.kind = .external symbol signature) :
    g.declareExternal s i t symbol signature = .ok s' ↔ Declares g s (.term i) s' := by
  rw [Setting.declareExternal, Except.bind_eq_ok]
  constructor
  · rintro ⟨d, hd, h⟩
    cases d with
    | native form =>
        cases h
        exact .native ht hk (Except.mapError_eq_ok.mp hd)
    | emulated e =>
        cases h
        exact .emulation ht hk (Except.mapError_eq_ok.mp hd)
  · intro h
    cases h with
    | routine ht' hr =>
        cases ht.symm.trans ht'
        simp [hk, Routine.ofKind?] at hr
    | native ht' hk' hd | emulation ht' hk' hd =>
        cases ht.symm.trans ht'
        cases hk.symm.trans hk'
        exact ⟨_, Except.mapError_eq_ok.mpr hd, rfl⟩

theorem Declares.term {i : Nat} (h : Declares g s (.term i) s') :
    ∃ t, g.program.terms[i]? = some t := by
  cases h with
  | routine ht | native ht | emulation ht => exact ⟨_, ht⟩

theorem declare_eq_ok {d : DeclId} : g.declare s d = .ok s' ↔ Declares g s d s' := by
  cases d with
  | record i => exact declareRecord_eq_ok
  | term i =>
      have hterm {t : Term} : (g.program.term i).mapError Error.fault = .ok t ↔
          g.program.terms[i]? = some t := by
        rw [Except.mapError_eq_ok, Program.term_eq_ok]
      have hkind {t : Term} (ht : g.program.terms[i]? = some t) :
          (match t.kind with
            | .function params result body => g.declareFunction s i t .function params result body
            | .value ty body => g.declareFunction s i t .value [] ty body
            | .external symbol signature => g.declareExternal s i t symbol signature) = .ok s' ↔
            Declares g s (.term i) s' := by
        cases hk : t.kind with
        | function params result body => exact declareFunction_eq_ok ht (by rw [hk]; rfl)
        | value ty body => exact declareFunction_eq_ok ht (by rw [hk]; rfl)
        | external symbol signature => exact declareExternal_eq_ok ht hk
      rw [Setting.declare, Setting.declareTerm, Except.bind_eq_ok]
      constructor
      · rintro ⟨t, ht, h⟩
        exact (hkind (hterm.mp ht)).mp h
      · intro h
        obtain ⟨t, ht⟩ := h.term
        exact ⟨t, hterm.mpr ht, (hkind ht).mpr h⟩

/-- What holds before any declaration, and is kept by each of them, holds after all. -/
theorem declareAll_induct {motive : List DeclId → Progress → Prop} {supply : Supply}
    {closure : Closure} (h : g.declareAll supply closure = .ok s')
    (start : motive [] ⟨supply, [], [], []⟩)
    (step : ∀ pre d post s s', closure.order = pre ++ d :: post → motive pre s →
      Declares g s d s' → motive (pre ++ [d]) s') : motive closure.order s' :=
  Except.foldlM_induct h start fun pre d post s s' ho hs hd =>
    step pre d post s s' ho hs (declare_eq_ok.mp hd)

theorem Declares.decls_subset {d : DeclId} (h : Declares g s d s') : s.decls ⊆ s'.decls := by
  cases h with
  | record | routine | emulation => exact List.subset_append_left _ _
  | native => exact List.Subset.refl _

theorem exists_declares {supply : Supply} {closure : Closure}
    (h : g.declareAll supply closure = .ok s) {d : DeclId} (hd : d ∈ closure.order) :
    ∃ s₁ s₂, Declares g s₁ d s₂ ∧ s₂.decls ⊆ s.decls := by
  refine declareAll_induct (motive := fun ds s => ∀ d ∈ ds, ∃ s₁ s₂, Declares g s₁ d s₂ ∧
    s₂.decls ⊆ s.decls) h (by simp) (fun pre d post s s' _ ih hs d' hmem => ?_) d hd
  rcases List.mem_append.mp hmem with hmem | hmem
  · obtain ⟨s₁, s₂, hd', hsub⟩ := ih d' hmem
    exact ⟨s₁, s₂, hd', List.Subset.trans hsub hs.decls_subset⟩
  · obtain rfl := List.mem_singleton.mp hmem
    exact ⟨s, s', hs, List.Subset.refl _⟩

theorem resolved_of_declareAll {supply : Supply} {closure : Closure}
    (h : g.declareAll supply closure = .ok s) {i : Nat} {t : Term} (hi : .term i ∈ closure.order)
    (ht : g.program.terms[i]? = some t) {symbol : String} {signature : Signature}
    (hk : t.kind = .external symbol signature) :
    ∃ d, g.table.resolve symbol signature.kind g.version g.shader.stage = .ok d := by
  obtain ⟨s₁, s₂, hd, _⟩ := exists_declares h hi
  cases hd with
  | routine ht' hr =>
      cases ht.symm.trans ht'
      simp [hk, Routine.ofKind?] at hr
  | native ht' hk' hd | emulation ht' hk' hd =>
      cases ht.symm.trans ht'
      cases hk.symm.trans hk'
      exact ⟨_, hd⟩

end Declares

end ShaderDialects.Lowering
