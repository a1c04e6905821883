import ShaderDialects.Proofs.Lowering.Shader

namespace ShaderDialects.Lowering

open Dialect (OutputWrite Stmt)
open Identifier (Supply)

/-- The table decides alike on an external in both versions, or in neither. -/
def SameDecision (table : Table) (stage : Stage) (v w : Version) : TermKind → Prop
  | .external symbol signature =>
      (table.resolve symbol signature.kind v stage).toOption =
        (table.resolve symbol signature.kind w stage).toOption
  | _ => True

theorem SameDecision.symm {table : Table} {stage : Stage} {v w : Version} {k : TermKind}
    (h : SameDecision table stage v w k) : SameDecision table stage w v k := by
  cases k with
  | external symbol signature => exact Eq.symm h
  | function | value => trivial

theorem SameDecision.resolve {table : Table} {stage : Stage} {v w : Version} {symbol : String}
    {signature : Signature} {d : Decision}
    (h : SameDecision table stage v w (.external symbol signature))
    (hd : table.resolve symbol signature.kind v stage = .ok d) :
    table.resolve symbol signature.kind w stage = .ok d := by
  rw [SameDecision, hd] at h
  cases hw : table.resolve symbol signature.kind w stage with
  | error e =>
      rw [hw] at h
      cases h
  | ok d' =>
      rw [hw] at h
      exact congrArg Except.ok (Option.some.inj h).symm

/-- Two versions that the lowering of a shader cannot tell apart. -/
structure Alike (p : Program) (s : Shader) (closure : Closure) (table : Table) (v w : Version) :
    Prop where
  family : v.family = w.family
  legacy : v.isLegacy = w.isLegacy
  locations : v.hasLocations = w.hasLocations
  externals : closure.AllTerms p fun t => SameDecision table s.stage v w t.kind

theorem Alike.symm {p : Program} {s : Shader} {closure : Closure} {table : Table} {v w : Version}
    (h : Alike p s closure table v w) : Alike p s closure table w v :=
  ⟨h.family.symm, h.legacy.symm, h.locations.symm, fun i t hi ht => (h.externals i t hi ht).symm⟩

def Setting.withVersion (g : Setting) (w : Version) : Setting := { g with version := w }

section Body

variable {g : Setting} {c : Context} {w : Version} {σ σ' : Scope}

theorem LowersSteps.withVersion {steps : List Step} {xs : List Dialect.Expr} {ss : List Stmt}
    (h : LowersSteps g c steps σ xs ss σ') : LowersSteps (g.withVersion w) c steps σ xs ss σ' := by
  induction h with
  | nil => exact .nil
  | bind hv _ ih => exact .bind hv ih
  | discard hf hc _ ih => exact .discard hf hc ih

variable (hl : g.version.isLegacy = w.isLegacy)
include hl

theorem sink_withVersion : (g.withVersion w).sink = g.sink := by
  funext output ident
  unfold Setting.sink
  rw [hl]
  rfl

theorem LowersAssignments.withVersion {as : List Assignment} {ws : List OutputWrite}
    {ss : List Stmt} (h : LowersAssignments g c as σ ws ss σ') :
    LowersAssignments (g.withVersion w) c as σ ws ss σ' := by
  induction h with
  | nil => exact .nil
  | cons ho ht hv hk _ ih =>
      rw [← sink_withVersion hl] at hk
      exact .cons ho ht hv hk ih

theorem lowerMain_withVersion {s : Progress} {main : Dialect.Main} (h : g.lowerMain s = .ok main) :
    (g.withVersion w).lowerMain s = .ok main := by
  obtain ⟨xs, ws, ss₁, σ₁, ss₂, σ₂, hsteps, hassign, hmain⟩ := lowerMain_eq_ok.mp h
  exact lowerMain_eq_ok.mpr
    ⟨xs, ws, ss₁, σ₁, ss₂, σ₂, hsteps.withVersion, hassign.withVersion hl, hmain⟩

theorem inputVars_withVersion : (g.withVersion w).inputVars = g.inputVars := by
  have hstorage : (g.withVersion w).inputStorage = g.inputStorage := by
    funext leaf
    unfold Setting.inputStorage
    rw [hl]
    rfl
  unfold Setting.inputVars Setting.inputVar
  rw [hstorage]
  rfl

theorem outputVars_withVersion (hloc : g.version.hasLocations = w.hasLocations) :
    (g.withVersion w).outputVars = g.outputVars := by
  have hstorage : (g.withVersion w).outputStorage? = g.outputStorage? := by
    funext leaf target
    unfold Setting.outputStorage?
    rw [hl, hloc]
    rfl
  unfold Setting.outputVars Setting.outputVar?
  rw [sink_withVersion hl, hstorage]
  rfl

end Body

section Declarations

variable {g : Setting} {w : Version}

theorem Declares.withVersion {s s' : Progress} {d : DeclId} (h : Declares g s d s')
    (hd : ∀ i t, d = .term i → g.program.terms[i]? = some t →
      SameDecision g.table g.shader.stage g.version w t.kind) :
    Declares (g.withVersion w) s d s' := by
  cases h with
  | record hr ht => exact .record hr ht
  | routine ht hr hp hres hb => exact .routine ht hr hp hres hb
  | native ht hk hform => exact .native ht hk ((hk ▸ hd _ _ rfl ht).resolve hform)
  | emulation ht hk he => exact .emulation ht hk ((hk ▸ hd _ _ rfl ht).resolve he)

theorem declareAll_withVersion {s : Progress} {supply : Supply} {closure : Closure}
    (h : g.declareAll supply closure = .ok s)
    (hd : closure.AllTerms g.program fun t =>
      SameDecision g.table g.shader.stage g.version w t.kind) :
    (g.withVersion w).declareAll supply closure = .ok s := by
  -- the other run has made the same progress after each part of the order
  refine declareAll_induct (motive := fun ds s =>
    ds.foldlM (g.withVersion w).declare ⟨supply, [], [], []⟩ = .ok s) h rfl ?_
  intro pre d post s s' ho ih hs
  have hstep : Declares (g.withVersion w) s d s' :=
    hs.withVersion fun i t hi ht => hd i t (by simp [ho, hi]) ht
  rw [List.foldlM_append]
  exact Except.bind_eq_ok.mpr ⟨s, ih, Except.bind_eq_ok.mpr ⟨s', declare_eq_ok.mpr hstep, rfl⟩⟩

end Declarations

section Shader

variable {p : Program} {s : Shader} {closure : Closure} {table : Table} {v w : Version}
  {d : Dialect.Shader}

theorem Presents.withVersion {i : Interface} (h : Presents ⟨p, s, v, table, i⟩ d)
    (hl : v.isLegacy = w.isLegacy) (hloc : v.hasLocations = w.hasLocations) :
    Presents ⟨p, s, w, table, i⟩ { d with version := w } :=
  ⟨(inputVars_withVersion (g := ⟨p, s, v, table, i⟩) hl).trans h.inputs,
    (outputVars_withVersion (g := ⟨p, s, v, table, i⟩) hl hloc).trans h.outputs, h.uniforms, h.stage⟩

theorem Alike.lower (h : Alike p s closure table v w)
    (hd : lower p s closure v table = .ok d) :
    lower p s closure w table = .ok { d with version := w } := by
  obtain ⟨i, supply, hassign, progress, hall, hmain, P, hname, -, hdecls⟩ := lower_eq_ok.mp hd
  exact lower_eq_ok.mpr ⟨i, supply, hassign, progress, declareAll_withVersion hall h.externals,
    lowerMain_withVersion (g := ⟨p, s, v, table, i⟩) h.legacy hmain,
    P.withVersion h.legacy h.locations, hname, rfl, hdecls⟩

end Shader

end ShaderDialects.Lowering
