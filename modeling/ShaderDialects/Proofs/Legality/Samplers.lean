import ShaderDialects.Proofs.Lowering.Faults
import ShaderDialects.Proofs.Lowering.Rebuilding
import ShaderDialects.Proofs.Lowering.Shader

namespace ShaderDialects

namespace Expr

variable {p : Program} {s : Shader} {Γ : List (Nat × Ty)} {e x : Expr}

theorem Noted.of_child (h : e.Noted p s Γ) (hx : x ∈ e.children) : ∃ Γ', x.Noted p s Γ' := by
  cases e with
  | literal | bound | term | input | parameter => simp [children] at hx
  | apply n f args => exact ⟨Γ, notedAll_iff.mp h.1 x hx⟩
  | construct n r fields => exact ⟨Γ, notedAll_iff.mp h.1 x hx⟩
  | field n base i | swizzle n base i =>
      obtain rfl := List.mem_singleton.mp hx
      exact ⟨Γ, h.1⟩
  | cond n c a r =>
      obtain ⟨hc, ha, hr, _⟩ := h
      simp only [children, List.mem_cons, List.not_mem_nil, or_false] at hx
      rcases hx with rfl | rfl | rfl
      exacts [⟨Γ, hc⟩, ⟨Γ, ha⟩, ⟨Γ, hr⟩]
  | bind n b value body =>
      obtain ⟨hv, hb, _⟩ := h
      simp only [children, List.mem_cons, List.not_mem_nil, or_false] at hx
      rcases hx with rfl | rfl
      exacts [⟨Γ, hv⟩, ⟨_, hb⟩]

def NotesRecord : Expr → Prop
  | construct n r _ => n.ty = .record r
  | _ => True

theorem Noted.notesRecord (h : e.Noted p s Γ) : e.NotesRecord := by
  cases e with
  | construct n r fields => exact h.2
  | _ => trivial

theorem Noted.wholes (h : e.Noted p s Γ) : ∀ x ∈ e.wholes, x.NotesRecord := by
  induction e using inductChildren generalizing Γ with
  | step e ih =>
      rw [wholes_eq, List.forall_mem_cons]
      refine ⟨h.notesRecord, ?_⟩
      split
      · exact List.forall_mem_nil _
      · refine List.forall_mem_flatMap.mpr fun c hc => ?_
        obtain ⟨Γ', hc'⟩ := h.of_child hc
        exact ih c hc hc'

end Expr

namespace Legality

variable {p : Program} {e : Expr} {i : Nat}

theorem ty_of_builtRecord? (h : builtRecord? e = some i) : e.ty = .record i := by
  rw [builtRecord?.eq_def] at h
  split at h <;> grind

theorem builtRecord?_of_path (hp : e.parameterPath?.isSome) (ht : e.ty = .record i) :
    builtRecord? e = some i := by
  rw [builtRecord?.eq_def]
  split <;> grind

def BuildsPlain (p : Program) (e : Expr) : Prop :=
  ∀ i, builtRecord? e = some i → p.holdsSampler (.record i) = .ok false

theorem samplerConstruct?_eq_none : samplerConstruct? p e = .ok none ↔ BuildsPlain p e := by
  rw [samplerConstruct?, BuildsPlain]
  cases builtRecord? e with
  | none => simp [Except.pure_eq_ok]
  | some i =>
      simp only [Except.bind_eq_ok, Option.some.injEq, forall_eq']
      constructor
      · rintro ⟨holds, hholds, h⟩
        cases holds with
        | false => exact hholds
        | true =>
            obtain ⟨r, _, h⟩ := Except.bind_eq_ok.mp h
            cases h
      · exact fun h => ⟨false, h, rfl⟩

theorem samplerConstructs_eq_nil :
    samplerConstructs p e = .ok [] ↔ ∀ x ∈ e.wholes, BuildsPlain p x := by
  simp only [← samplerConstruct?_eq_none]
  rw [samplerConstructs, Except.bind_eq_ok]
  simp only [Except.pure_eq_ok, List.filterMap_eq_nil_iff, id]
  rw [Except.exists_mapM_eq_ok]
  simp

end Legality

namespace Lowering

open Dialect (Main OutputWrite Stmt)
open Legality

section Found

variable {p : Program} {s : Shader} {closure : Closure}

/-- What the check finds in the code of a shader: all places that build a record with a sampler. -/
def samplersOf (p : Program) (s : Shader) (closure : Closure) : Except Fault (List Construct) := do
  return (← (sources p s closure).mapM (samplerConstructs p)).flatten

theorem samplersOf_eq_nil :
    samplersOf p s closure = .ok [] ↔
      ∀ e ∈ sources p s closure, ∀ x ∈ e.wholes, BuildsPlain p x := by
  simp only [← samplerConstructs_eq_nil]
  rw [samplersOf, Except.bind_eq_ok]
  simp only [Except.pure_eq_ok, List.flatten_eq_nil_iff]
  rw [Except.exists_mapM_eq_ok]
  simp

theorem mentions_of_sources (h : Closure.ofShader p s = .ok closure) {e : Expr}
    (he : e ∈ sources p s closure) : ∀ d ∈ e.mentions, d ∈ closure.order := by
  obtain ⟨hl, hs⟩ := Closure.ofShader_spec h
  rcases List.mem_append.mp he with he | he
  · exact fun d hd => hs (Shader.mem_references_of_expr he hd)
  · obtain ⟨d, hd, hbody⟩ := List.mem_filterMap.mp he
    obtain ⟨i, t, r, rfl, ht, hr, rfl⟩ := bodyOf?_eq_some.mp hbody
    obtain ⟨pre, post, ho⟩ := List.append_of_mem hd
    obtain ⟨t', ht', hm⟩ := hl.term ho
    cases ht.symm.trans ht'
    rw [Routine.mentions hr, List.forall_mem_append] at hm
    rw [ho]
    exact fun d hd => List.mem_append_left _ (hm.2 d hd)

theorem exists_samplersOf (h : Closure.ofShader p s = .ok closure) :
    ∃ found, samplersOf p s closure = .ok found := by
  have K : p.Knows closure.order := (Closure.ofShader_spec h).1.knows
  have hnode (e : Expr) (hm : ∀ d ∈ e.mentions, d ∈ closure.order) :
      ∃ c?, samplerConstruct? p e = .ok c? := by
    rw [samplerConstruct?]
    cases hb : builtRecord? e with
    | none => exact ⟨none, rfl⟩
    | some i =>
        have hi : .record i ∈ e.ownMentions := by
          simp [Expr.ownMentions, ty_of_builtRecord? hb, Ty.mentions]
        have hr := K.records i (hm _ (Expr.mentions_of_own hi))
        obtain ⟨holds, hholds⟩ := hr.holdsSamplerWithin
        cases holds with
        | false => exact ⟨none, Except.bind_eq_ok.mpr ⟨false, hholds, rfl⟩⟩
        | true =>
            obtain ⟨r, hrecord⟩ := hr.exists_record
            exact ⟨_, Except.bind_eq_ok.mpr ⟨true, hholds, Except.bind_eq_ok.mpr ⟨r, hrecord, rfl⟩⟩⟩
  have hexpr (e : Expr) (he : e ∈ sources p s closure) : ∃ cs, samplerConstructs p e = .ok cs := by
    have hm := mentions_of_sources h he
    obtain ⟨found, hfound⟩ := List.exists_forall₂ fun x hx =>
      hnode x fun d hd => hm d (Expr.mentions_of_wholes hx hd)
    exact ⟨_, Except.bind_eq_ok.mpr ⟨found, Except.mapM_eq_ok.mpr hfound, rfl⟩⟩
  obtain ⟨found, hfound⟩ := List.exists_forall₂ hexpr
  exact ⟨_, Except.bind_eq_ok.mpr ⟨found, Except.mapM_eq_ok.mpr hfound, rfl⟩⟩

theorem notesRecord_of_wellNoted (ht : WellNoted p s closure) :
    ∀ e ∈ sources p s closure, ∀ x ∈ e.wholes, x.NotesRecord := by
  have hsteps {Γ : List (Nat × Ty)} {steps : List Step} (h : s.NotedSteps p Γ steps) :
      ∀ step ∈ steps, ∃ Γ, step.expr.Noted p s Γ := by
    induction steps generalizing Γ with
    | nil => exact List.forall_mem_nil _
    | cons step steps ih =>
        refine List.forall_mem_cons.mpr ⟨?_, ih h.2⟩
        cases step with
        | bind b value => exact ⟨Γ, h.1.1⟩
        | discard condition span => exact ⟨Γ, h.1⟩
  refine List.forall_mem_append.mpr ⟨List.forall_mem_append.mpr ⟨?_, ?_⟩, fun e he => ?_⟩
  · refine List.forall_mem_map.mpr fun step hstep => ?_
    obtain ⟨Γ, hnoted⟩ := hsteps ht.shader.1 step hstep
    exact hnoted.wholes
  · exact List.forall_mem_map.mpr fun a ha => (ht.shader.2 a ha).wholes
  · obtain ⟨d, hd, hbody⟩ := List.mem_filterMap.mp he
    obtain ⟨i, t, r, rfl, htm, hr, rfl⟩ := bodyOf?_eq_some.mp hbody
    exact (Routine.noted hr (ht.terms i t hd htm)).wholes

end Found

section Refused

/-! Lowering builds no record with a sampler. -/

variable {g : Setting} {c : Context} {σ σ' : Scope} {ss : List Stmt}

theorem Lowers.buildsPlain {task : Task} (h : Lowers c task σ ss σ')
    (hn : task.Forall fun e => ∀ x ∈ e.wholes, x.NotesRecord) :
    task.Forall fun e => ∀ x ∈ e.wholes, BuildsPlain c.program x := by
  have other {e : Expr} (hp : e.parameterPath? = none)
      (hc : ∀ n r fields, e ≠ .construct n r fields) : BuildsPlain c.program e := by
    simp [BuildsPlain, builtRecord?_eq_none hp hc]
  induction h with
  | literal | bound | term | input =>
      exact (Expr.forall_wholes rfl).mpr ⟨other rfl (by simp), by simp [Expr.children]⟩
  | @path e _ _ x _ hp hx =>
      intro y hy i hi
      obtain rfl : y = e := by simpa [Expr.wholes_eq, hp] using hy
      rw [ty_of_builtRecord? hi] at hx
      exact Context.constructible_eq_ok.mp (Context.rebuildWithin_record.mp hx).1
  | apply _ _ ih =>
      exact (Expr.forall_wholes rfl).mpr
        ⟨other rfl (by simp), ih ((Expr.forall_wholes rfl).mp hn).2⟩
  | @construct n r fields _ _ _ _ _ hr _ _ ih =>
      obtain ⟨hty, hn⟩ := (Expr.forall_wholes rfl).mp hn
      refine (Expr.forall_wholes rfl).mpr ⟨fun i hi => ?_, ih hn⟩
      cases hty.symm.trans (ty_of_builtRecord? hi)
      exact Context.constructible_eq_ok.mp hr
  | field hp _ _ ih =>
      have hbase := ih (((Expr.forall_wholes hp).mp hn).2 _ List.mem_cons_self)
      exact (Expr.forall_wholes hp).mpr ⟨other hp (by simp), List.forall_mem_singleton.mpr hbase⟩
  | swizzle _ ih =>
      have hbase := ih (((Expr.forall_wholes rfl).mp hn).2 _ List.mem_cons_self)
      exact (Expr.forall_wholes rfl).mpr ⟨other rfl (by simp), List.forall_mem_singleton.mpr hbase⟩
  | hoistCond _ _ ih | hoistBind _ _ ih | write _ _ ih => exact ih hn
  | nil => exact List.forall_mem_nil _
  | cons _ _ ih ihs =>
      obtain ⟨hn, hns⟩ := List.forall_mem_cons.mp hn
      exact List.forall_mem_cons.mpr ⟨ih hn, ihs hns⟩
  | choose _ _ _ ih ih₁ ih₂ =>
      have hn := ((Expr.forall_wholes rfl).mp hn).2
      simp only [Expr.children, List.forall_mem_cons] at hn
      refine (Expr.forall_wholes rfl).mpr ⟨other rfl (by simp), ?_⟩
      simp only [Expr.children, List.forall_mem_cons]
      exact ⟨ih hn.1, ih₁ hn.2.1, ih₂ hn.2.2.1, List.forall_mem_nil _⟩
  | bind _ _ ih ih₁ =>
      have hn := ((Expr.forall_wholes rfl).mp hn).2
      simp only [Expr.children, List.forall_mem_cons] at hn
      refine (Expr.forall_wholes rfl).mpr ⟨other rfl (by simp), ?_⟩
      simp only [Expr.children, List.forall_mem_cons]
      exact ⟨ih hn.1, ih₁ hn.2.1, List.forall_mem_nil _⟩
  | assignLocal _ _ _ ih | initLocal _ _ _ ih => exact ih hn

theorem LowersSteps.buildsPlain {steps : List Step} {xs : List Dialect.Expr}
    (h : LowersSteps g c steps σ xs ss σ')
    (hn : ∀ step ∈ steps, ∀ x ∈ step.expr.wholes, x.NotesRecord) :
    ∀ step ∈ steps, ∀ x ∈ step.expr.wholes, BuildsPlain c.program x := by
  induction h with
  | nil => exact List.forall_mem_nil _
  | bind hv _ ih | discard _ hv _ ih =>
      obtain ⟨hn, hns⟩ := List.forall_mem_cons.mp hn
      exact List.forall_mem_cons.mpr ⟨hv.buildsPlain hn, ih hns⟩

theorem LowersAssignments.buildsPlain {as : List Assignment} {ws : List OutputWrite}
    (h : LowersAssignments g c as σ ws ss σ')
    (hn : ∀ a ∈ as, ∀ x ∈ a.value.wholes, x.NotesRecord) :
    ∀ a ∈ as, ∀ x ∈ a.value.wholes, BuildsPlain c.program x := by
  induction h with
  | nil => exact List.forall_mem_nil _
  | cons _ _ hv _ _ ih =>
      obtain ⟨hn, hns⟩ := List.forall_mem_cons.mp hn
      exact List.forall_mem_cons.mpr ⟨hv.buildsPlain hn, ih hns⟩

theorem samplersOf_of_lower {p : Program} {s : Shader} {closure : Closure} {v : Version}
    {table : Table} {d : Dialect.Shader} (h : lower p s closure v table = .ok d)
    (hn : ∀ e ∈ sources p s closure, ∀ x ∈ e.wholes, x.NotesRecord) :
    samplersOf p s closure = .ok [] := by
  obtain ⟨_, _, -, progress, hp, hm, -⟩ := lower_eq_ok.mp h
  obtain ⟨ss₁, σ, ss₂, σ', hs, ha, -⟩ := lowerMain_parts hm
  rw [samplersOf_eq_nil]
  rw [sources, Shader.exprs] at hn ⊢
  simp only [List.forall_mem_append, List.forall_mem_map] at hn ⊢
  refine ⟨⟨hs.buildsPlain hn.1.1, ha.buildsPlain hn.1.2⟩, fun e he => ?_⟩
  have hne := hn.2 e he
  obtain ⟨decl, hd, hbody⟩ := List.mem_filterMap.mp he
  obtain ⟨i, t, r, rfl, ht, hr, rfl⟩ := bodyOf?_eq_some.mp hbody
  obtain ⟨_, _, hdecl, -⟩ := exists_declares hp hd
  cases hdecl with
  | routine ht' hr' _ _ hb =>
      cases ht.symm.trans ht'
      cases hr.symm.trans hr'
      exact hb.buildsPlain hne
  | native ht' hk | emulation ht' hk =>
      cases ht.symm.trans ht'
      simp [hk, Routine.ofKind?] at hr

end Refused

section Blamed

/-! No record is refused for a sampler that the check has not found. -/

def Error.IsSamplerRecord : Error → Prop
  | malformed _ (.samplerRecord _) => True
  | _ => False

theorem inner_samplerRecord (shader : String) : Inner Error.IsSamplerRecord shader where
  builtin _ := not_false
  plain reason h := by
    cases reason with
    | samplerRecord name => cases h
    | _ => exact not_false
  fault _ := not_false
  undeclared _ := not_false

theorem lower_avoids_samplerRecord {p : Program} {s : Shader} {closure : Closure}
    (hn : ∀ e ∈ sources p s closure, ∀ x ∈ e.wholes, x.NotesRecord)
    (h : samplersOf p s closure = .ok []) (v : Version) (table : Table) :
    (lower p s closure v table).Avoids Error.IsSamplerRecord := by
  rw [samplersOf_eq_nil] at h
  refine avoids_lower_of_inner (inner_samplerRecord _) (fun c hp hs e he x hx => ?_)
    (fun _ _ => not_false) (fun _ _ _ _ _ _ => not_false) v table
  obtain rfl := hp
  have hplain := h e he x hx
  refine Context.ownAvoids_of_inner
    (R := fun ty => ∀ i, ty = .record i → c.program.holdsSampler (.record i) = .ok false)
    (inner_samplerRecord _) (fun i hi => ?_) (fun i r hi hr f hf j hj => ?_)
    (fun hpath i hi => ?_) ?_
  · exact .of_exists ⟨(), Context.constructible_eq_ok.mpr (hi i rfl)⟩
  · exact hj ▸ Program.holdsSampler_field (hi i rfl) hr hf
  · exact hplain i (builtRecord?_of_path hpath hi)
  · rintro n r fields rfl i ⟨⟩
    have hty : n.ty = .record r := hn _ he _ hx
    exact hplain r (by simp [builtRecord?, Expr.ty, Expr.note, hty])

end Blamed

/-- In a shader whose nodes are noted with their types, the check says whether a record that holds a
sampler is built. If none is, lowering never ends in an error that says so; if one is, it ends in an
error at every version. -/
theorem lower_agrees_on_samplers {p : Program} {s : Shader} {closure : Closure}
    (h : Closure.ofShader p s = .ok closure) (ht : WellNoted p s closure) :
    ∃ found, samplersOf p s closure = .ok found ∧ ∀ v table,
      (found = [] → ∀ name record,
        lower p s closure v table ≠ .error (.malformed name (.samplerRecord record))) ∧
      (found ≠ [] → ∃ e, lower p s closure v table = .error e) := by
  have hn := notesRecord_of_wellNoted ht
  obtain ⟨found, hfound⟩ := exists_samplersOf h
  refine ⟨found, hfound, fun v table => ⟨?_, fun hne => ?_⟩⟩
  · rintro rfl name record
    exact lower_avoids_samplerRecord hn hfound v table _ trivial
  · cases hl : lower p s closure v table with
    | error e => exact ⟨e, rfl⟩
    | ok d =>
        have hnil := samplersOf_of_lower hl hn
        exact absurd (Except.ok.inj (hfound.symm.trans hnil)) hne

namespace Painted

/-! A material with a map and a tint is read as a whole, or its tint is read. -/

abbrev vec4 : Ty := .leaf .vec4

def program : Program where
  records := [⟨"Material", [⟨"map", .leaf (.sampler .flat)⟩, ⟨"tint", vec4⟩], {}⟩]
  terms := [⟨"tint", .function [⟨0, "material", .record 0⟩] vec4
    (.field ⟨vec4, {}⟩ (.bound ⟨.record 0, {}⟩ 0) 1), {}⟩]

def material : Expr := .parameter ⟨.record 0, {}⟩ 0

def shader (color : Expr) : Shader where
  name := "painted"
  stage := .fragment
  parameters := [⟨"material", .record 0, {}⟩]
  outputs := [⟨⟨"color", vec4, {}⟩, .attachment 0⟩]
  assignments := [⟨0, color⟩]

def whole : Shader := shader (.apply ⟨vec4, {}⟩ 0 [material])

def part : Shader := shader (.field ⟨vec4, {}⟩ material 1)

end Painted

open Painted in
theorem lower_agrees_on_samplers_painted :
    samplersOf program part (.placed [.record 0]) = .ok [] ∧
      (∃ d, lower program part (.placed [.record 0]) (.full .v330) .empty = .ok d) ∧
      (∀ v table name record, lower program part (.placed [.record 0]) v table ≠
        .error (.malformed name (.samplerRecord record))) ∧
      (samplersOf program whole (.placed [.record 0, .term 0])).toOption.map List.length = some 1 ∧
      ∀ v table, ∃ e, lower program whole (.placed [.record 0, .term 0]) v table = .error e := by
  have hpart : samplersOf program part (.placed [.record 0]) = .ok [] := rfl
  have hwhole :
      (samplersOf program whole (.placed [.record 0, .term 0])).toOption.map List.length =
        some 1 := rfl
  have hp : WellTyped program part (.placed [.record 0]) := by decide
  have hw : WellTyped program whole (.placed [.record 0, .term 0]) := by decide
  obtain ⟨found, hfound, h⟩ := lower_agrees_on_samplers rfl hp.noted
  obtain ⟨found', hfound', h'⟩ := lower_agrees_on_samplers rfl hw.noted
  cases hpart.symm.trans hfound
  refine ⟨hpart, Except.exists_eq_ok_of_isOk (by decide +kernel), fun v table => (h v table).1 rfl,
    hwhole, fun v table => (h' v table).2 ?_⟩
  rintro rfl
  rw [hfound'] at hwhole
  cases hwhole

end Lowering

end ShaderDialects
