import ShaderDialects.Legality.Construct
import ShaderDialects.Proofs.Builtin.Availability
import ShaderDialects.Proofs.Source.Linearization

namespace ShaderDialects.Legality

section Sets

variable {v : Version}

theorem contains_supported {cs : List Construct} :
    (supported cs).contains v = true ↔ ∀ c ∈ cs, c.versions.contains v = true := by
  suffices h : ∀ vs : VersionSet, (cs.foldl (fun s c => s.inter c.versions) vs).contains v = true ↔
      vs.contains v = true ∧ ∀ c ∈ cs, c.versions.contains v = true by
    simpa [supported] using h .universal
  induction cs with
  | nil => simp
  | cons c cs ih => simp [ih, and_assoc]

namespace Construct

@[simp]
theorem contains_ofRule {subject : Subject} {span : Span} {rule : Version → Option Objection} :
    (ofRule subject span rule).versions.contains v = true ↔ rule v = none := by
  simp [ofRule]

@[simp]
theorem contains_never (subject : Subject) (span : Span) (o : Objection) :
    (never subject span o).versions.contains v = false := by
  simp [never]

end Construct

theorem firstUses_spec (uses : Uses) (P : Leaf → Prop) :
    (∀ use ∈ firstUses uses, P use.1) ↔ ∀ use ∈ uses, P use.1 := by
  suffices h : ∀ kept : Uses, (∀ use ∈ uses.foldl
      (fun kept use => if kept.any (fun k => k.1 = use.1) then kept else kept ++ [use]) kept,
      P use.1) ↔ (∀ use ∈ kept, P use.1) ∧ ∀ use ∈ uses, P use.1 by
    simpa [firstUses] using h []
  induction uses with
  | nil => simp
  | cons use uses ih =>
      intro kept
      rw [List.foldl_cons, ih, List.forall_mem_cons, ← and_assoc]
      refine and_congr_left fun _ => ?_
      split
      next h =>
        obtain ⟨k, hk, hl⟩ : ∃ k ∈ kept, k.1 = use.1 := by simpa using h
        exact ⟨fun h => ⟨h, hl ▸ h k hk⟩, And.left⟩
      next => rw [List.forall_mem_append, List.forall_mem_singleton]

structure Findings.Allowed (v : Version) (f : Findings) : Prop where
  externals : ∀ c ∈ f.externals, c.versions.contains v = true
  uses : ∀ use ∈ f.uses, leafRule use.1 v = none
  samplers : ∀ c ∈ f.samplers, c.versions.contains v = true

theorem Findings.allowed_append {f g : Findings} :
    (f.append g).Allowed v ↔ f.Allowed v ∧ g.Allowed v := by
  constructor
  · rintro ⟨he, hu, hs⟩
    simp only [append, List.forall_mem_append] at he hu hs
    exact ⟨⟨he.1, hu.1, hs.1⟩, he.2, hu.2, hs.2⟩
  · rintro ⟨⟨he, hu, hs⟩, he', hu', hs'⟩
    exact ⟨List.forall_mem_append.mpr ⟨he, he'⟩, List.forall_mem_append.mpr ⟨hu, hu'⟩,
      List.forall_mem_append.mpr ⟨hs, hs'⟩⟩

theorem Findings.allowed_join {fs : List Findings} :
    (join fs).Allowed v ↔ ∀ f ∈ fs, f.Allowed v := by
  induction fs with
  | nil => exact iff_of_true ⟨by simp [join], by simp [join], by simp [join]⟩ (by simp)
  | cons f fs ih => rw [List.forall_mem_cons, ← ih, ← allowed_append]; rfl

end Sets

variable (p : Program) (table : Table) (stage : Stage) (v : Version)

def TyAllowed (ty : Ty) : Prop := ∀ t, ty = .leaf t → leafRule t v = none

structure ExprAllowed (e : Expr) : Prop where
  uses : ∀ use ∈ usesOfExpr e, leafRule use.1 v = none
  built : ∀ x ∈ e.wholes, ∀ i, builtRecord? x = some i → p.holdsSampler (.record i) = .ok false

def TermAllowed : TermKind → Prop
  | .function params result body =>
      (∀ b ∈ params, TyAllowed v b.ty) ∧ TyAllowed v result ∧ ExprAllowed p v body
  | .value ty body => TyAllowed v ty ∧ ExprAllowed p v body
  | .external symbol signature =>
      (∃ d, table.resolve symbol signature.kind v stage = .ok d) ∧
        ∀ t ∈ signature.leaves, leafRule t v = none

def DeclAllowed : DeclId → Prop
  | .record i => ∃ r, p.records[i]? = some r ∧ ∀ f ∈ r.fields, TyAllowed v f.ty
  | .term i => ∃ t, p.terms[i]? = some t ∧ TermAllowed p table stage v t.kind

def InputAllowed (q : Slot) : Prop :=
  ∃ t, q.ty = .leaf t ∧ interfaceRule t = none ∧ integerRule t v = none

def targetRule (t : Leaf) : Stage → Target → Prop
  | .vertex, .varying => interfaceRule t = none ∧ integerRule t v = none
  | .vertex, .position => positionRule t = none
  | .fragment, .attachment n => interfaceRule t = none ∧ attachmentRule n t v = none
  | .fragment, .depth => depthRule t v = none
  | _, _ => False

def OutputAllowed (o : Output) : Prop := ∃ t, o.ty = .leaf t ∧ targetRule v t stage o.target

variable {p table stage v}

theorem usesOfTy_allowed {span : Span} {ty : Ty} :
    (∀ use ∈ usesOfTy span ty, leafRule use.1 v = none) ↔ TyAllowed v ty := by
  cases ty <;> simp [usesOfTy, Ty.leaf?, TyAllowed]

theorem contains_ofInput {q : Slot} :
    (Construct.ofInput q).versions.contains v = true ↔ InputAllowed v q := by
  rw [Construct.ofInput, InputAllowed]
  cases q.ty with
  | leaf t => simp
  | record i => simp

theorem contains_ofOutput {o : Output} :
    (Construct.ofOutput stage o).versions.contains v = true ↔ OutputAllowed stage v o := by
  rw [Construct.ofOutput, OutputAllowed]
  cases o.ty with
  | leaf t => cases stage <;> cases o.target <;> simp [targetRule]
  | record i => simp

theorem contains_ofVertexRules {s : Shader} :
    (∀ c ∈ Construct.ofVertexRules s, c.versions.contains v = true) ↔
      Construct.leafPositions s = 1 ∧ ∀ c span, .discard c span ∉ s.steps := by
  rw [Construct.ofVertexRules, List.forall_mem_append]
  refine and_congr ?_ ?_
  · split <;> simp_all
  · simp only [List.mem_filterMap]
    constructor
    · intro h c span hmem
      simpa using h _ ⟨_, hmem, rfl⟩
    · rintro h c ⟨step, hmem, hc⟩
      cases step with
      | bind b value => simp at hc
      | discard condition span => exact absurd hmem (h condition span)

section Listing

theorem samplerConstruct?_allowed {e : Expr} :
    (∃ c?, samplerConstruct? p e = .ok c? ∧ ∀ c ∈ c?, c.versions.contains v = true) ↔
      ∀ i, builtRecord? e = some i → p.holdsSampler (.record i) = .ok false := by
  rw [samplerConstruct?]
  cases builtRecord? e with
  | none => simp [Except.pure_eq_ok]
  | some i =>
      simp only [Except.bind_eq_ok]
      cases h : p.holdsSampler (.record i) with
      | error fault => simp [h]
      | ok b =>
          cases b with
          | false => simp [h, Except.pure_eq_ok]
          | true =>
              refine iff_of_false ?_ (by simp [h])
              rintro ⟨c?, ⟨_, ⟨⟩, hc⟩, hall⟩
              obtain ⟨r, _, hc⟩ := Except.bind_eq_ok.mp hc
              obtain rfl := Except.pure_eq_ok.mp hc
              simpa using hall _ rfl

theorem samplerConstructs_allowed {e : Expr} :
    (∃ cs, samplerConstructs p e = .ok cs ∧ ∀ c ∈ cs, c.versions.contains v = true) ↔
      ∀ x ∈ e.wholes, ∀ i, builtRecord? x = some i → p.holdsSampler (.record i) = .ok false := by
  have hmap {cs : List Construct} : samplerConstructs p e = .ok cs ↔
      ∃ found, e.wholes.mapM (samplerConstruct? p) = .ok found ∧ found.filterMap id = cs := by
    rw [samplerConstructs, Except.bind_eq_ok]
    simp only [Except.pure_eq_ok]
  have hall {found : List (Option Construct)} :
      (∀ c ∈ found.filterMap id, c.versions.contains v = true) ↔
        ∀ c? ∈ found, ∀ c ∈ c?, c.versions.contains v = true := by
    simp only [List.mem_filterMap, id]
    exact ⟨fun h c? hc? c hc => h c ⟨c?, hc?, hc⟩, fun h c ⟨c?, hc?, hc⟩ => h c? hc? c hc⟩
  simp only [← samplerConstruct?_allowed (v := v), ← Except.exists_mapM_eq_ok, hmap]
  constructor
  · rintro ⟨_, ⟨found, hfound, rfl⟩, h⟩
    exact ⟨found, hfound, hall.mp h⟩
  · rintro ⟨found, hfound, h⟩
    exact ⟨_, ⟨found, hfound, rfl⟩, hall.mpr h⟩

theorem findingsOfExpr_allowed {e : Expr} :
    (∃ f, findingsOfExpr p e = .ok f ∧ f.Allowed v) ↔ ExprAllowed p v e := by
  have hf {f : Findings} : findingsOfExpr p e = .ok f ↔
      ∃ cs, samplerConstructs p e = .ok cs ∧ ⟨[], usesOfExpr e, cs⟩ = f := by
    rw [findingsOfExpr, Except.bind_eq_ok]
    simp only [Except.pure_eq_ok]
  constructor
  · rintro ⟨f, h, hu⟩
    obtain ⟨cs, hcs, rfl⟩ := hf.mp h
    exact ⟨hu.uses, samplerConstructs_allowed.mp ⟨cs, hcs, hu.samplers⟩⟩
  · rintro ⟨hu, hb⟩
    obtain ⟨cs, hcs, hs⟩ := samplerConstructs_allowed.mpr hb
    exact ⟨_, hf.mpr ⟨cs, hcs, rfl⟩, by simp, hu, hs⟩

theorem allowed_uses {uses : Uses} :
    Findings.Allowed v { uses := uses } ↔ ∀ use ∈ uses, leafRule use.1 v = none :=
  ⟨fun h => h.uses, fun h => ⟨by simp, h, by simp⟩⟩

theorem findingsOfParameter_allowed {q : Slot} :
    (∃ f, findingsOfParameter p q = .ok f ∧ f.Allowed v) ↔
      ∃ us, p.flatten q.name q.ty = .ok us ∧ ∀ u ∈ us, leafRule u.leaf v = none := by
  have hf {f : Findings} : findingsOfParameter p q = .ok f ↔
      ∃ us, p.flatten q.name q.ty = .ok us ∧ { uses := us.map fun u => (u.leaf, q.span) } = f := by
    rw [findingsOfParameter, Except.bind_eq_ok]
    simp only [Except.pure_eq_ok]
  constructor
  · rintro ⟨f, h, hu⟩
    obtain ⟨us, hus, rfl⟩ := hf.mp h
    exact ⟨us, hus, by simpa using allowed_uses.mp hu⟩
  · rintro ⟨us, hus, h⟩
    exact ⟨_, hf.mpr ⟨us, hus, rfl⟩, allowed_uses.mpr (by simpa using h)⟩

theorem withBody_allowed {signature : Uses} {body : Expr} :
    (∃ f, (do
        let f ← (findingsOfExpr p body).mapError ListingError.fault
        return Findings.append { uses := signature } f : Except ListingError Findings) = .ok f ∧
      f.Allowed v) ↔
      (∀ use ∈ signature, leafRule use.1 v = none) ∧ ExprAllowed p v body := by
  rw [← allowed_uses, ← findingsOfExpr_allowed]
  simp only [Except.bind_eq_ok, Except.mapError_eq_ok, Except.pure_eq_ok]
  constructor
  · rintro ⟨_, ⟨f, hf, rfl⟩, h⟩
    obtain ⟨hs, hb⟩ := Findings.allowed_append.mp h
    exact ⟨hs, f, hf, hb⟩
  · rintro ⟨hs, f, hf, hb⟩
    exact ⟨_, ⟨f, hf, rfl⟩, Findings.allowed_append.mpr ⟨hs, hb⟩⟩

theorem findingsOfTerm_allowed {t : Term} :
    (∃ f, findingsOfTerm p table stage t = .ok f ∧ f.Allowed v) ↔
      TermAllowed p table stage v t.kind := by
  rw [findingsOfTerm]
  cases t.kind with
  | function params result body =>
      refine withBody_allowed.trans ?_
      rw [List.forall_mem_append, List.forall_mem_flatMap]
      simp only [usesOfTy_allowed, TermAllowed, and_assoc]
  | value ty body =>
      refine withBody_allowed.trans ?_
      simp only [usesOfTy_allowed, TermAllowed]
  | external symbol signature =>
      rw [TermAllowed, ← Table.available_iff_resolves]
      simp only [Except.bind_eq_ok, Except.mapError_eq_ok, Except.pure_eq_ok]
      constructor
      · rintro ⟨_, ⟨vs, hvs, rfl⟩, h⟩
        exact ⟨⟨vs, hvs, h.externals _ (List.mem_singleton_self _)⟩, by simpa using h.uses⟩
      · rintro ⟨⟨vs, hvs, hv⟩, hu⟩
        exact ⟨_, ⟨vs, hvs, rfl⟩, by simpa [Construct.ofExternal] using hv, by simpa using hu, by simp⟩

theorem findingsOfDecl_allowed {d : DeclId} :
    (∃ f, findingsOfDecl p table stage d = .ok f ∧ f.Allowed v) ↔ DeclAllowed p table stage v d := by
  cases d with
  | record i =>
      simp only [findingsOfDecl, Except.bind_eq_ok, Except.mapError_eq_ok, Except.pure_eq_ok,
        Program.record_eq_ok, DeclAllowed]
      constructor
      · rintro ⟨_, ⟨r, hr, rfl⟩, h⟩
        have hu := List.forall_mem_flatMap.mp (allowed_uses.mp h)
        exact ⟨r, hr, fun f hf => usesOfTy_allowed.mp (hu f hf)⟩
      · rintro ⟨r, hr, h⟩
        exact ⟨_, ⟨r, hr, rfl⟩, allowed_uses.mpr
          (List.forall_mem_flatMap.mpr fun f hf => usesOfTy_allowed.mpr (h f hf))⟩
  | term i =>
      simp only [findingsOfDecl, Except.bind_eq_ok, Except.mapError_eq_ok, Program.term_eq_ok,
        DeclAllowed, ← findingsOfTerm_allowed]
      constructor
      · rintro ⟨f, ⟨t, ht, hf⟩, h⟩
        exact ⟨t, ht, f, hf, h⟩
      · rintro ⟨t, ht, f, hf, h⟩
        exact ⟨f, ⟨t, ht, hf⟩, h⟩

end Listing

variable (p table v) in
/-- All that a shader and its closure are made of is allowed. -/
structure Admitted (s : Shader) (closure : Closure) : Prop where
  inputs : ∀ q ∈ s.inputs, InputAllowed v q
  outputs : ∀ o ∈ s.outputs, OutputAllowed s.stage v o
  vertex : s.stage = .vertex →
    Construct.leafPositions s = 1 ∧ ∀ c span, .discard c span ∉ s.steps
  parameters : ∀ q ∈ s.parameters, ∃ us, p.flatten q.name q.ty = .ok us ∧
    ∀ u ∈ us, leafRule u.leaf v = none
  exprs : ∀ e ∈ s.exprs, ExprAllowed p v e
  decls : ∀ d ∈ closure.order, DeclAllowed p table s.stage v d

theorem contains_ofInterface {s : Shader} :
    (∀ c ∈ Construct.ofInterface s, c.versions.contains v = true) ↔
      (∀ q ∈ s.inputs, InputAllowed v q) ∧ (∀ o ∈ s.outputs, OutputAllowed s.stage v o) ∧
        (s.stage = .vertex →
          Construct.leafPositions s = 1 ∧ ∀ c span, .discard c span ∉ s.steps) := by
  rw [Construct.ofInterface, List.forall_mem_append, List.forall_mem_append, List.forall_mem_map,
    List.forall_mem_map, and_assoc]
  simp only [contains_ofInput, contains_ofOutput]
  refine and_congr_right fun _ => and_congr_right fun _ => ?_
  split
  next h => simpa [h] using contains_ofVertexRules
  next h => simp [h]

/-- The versions of a shader are those in which all that it is made of is allowed. -/
theorem maximal_contains_iff {s : Shader} {closure : Closure} :
    (∃ vs, maximal p table s closure = .ok vs ∧ vs.contains v = true) ↔
      Admitted p table v s closure := by
  have hcs {cs : List Construct} : constructs p table s closure = .ok cs ↔
      ∃ fp, s.parameters.mapM (findingsOfParameter p) = .ok fp ∧
      ∃ fb, s.exprs.mapM (findingsOfExpr p) = .ok fb ∧
      ∃ fd, closure.order.mapM (findingsOfDecl p table s.stage) = .ok fd ∧
        Construct.ofInterface s ++ (Findings.join (fp ++ fb ++ fd)).externals
          ++ (firstUses (Findings.join (fp ++ fb ++ fd)).uses).map Construct.ofLeaf
          ++ (Findings.join (fp ++ fb ++ fd)).samplers = cs := by
    rw [constructs, Except.bind_eq_ok]
    simp only [Except.mapError_eq_ok, Except.bind_eq_ok, Except.pure_eq_ok]
  have hall {f : Findings} : f.Allowed v ↔
      (∀ c ∈ f.externals, c.versions.contains v = true) ∧
        (∀ c ∈ (firstUses f.uses).map Construct.ofLeaf, c.versions.contains v = true) ∧
          ∀ c ∈ f.samplers, c.versions.contains v = true := by
    rw [List.forall_mem_map]
    simp only [Construct.ofLeaf, Construct.contains_ofRule,
      firstUses_spec f.uses fun t => leafRule t v = none]
    exact ⟨fun h => ⟨h.externals, h.uses, h.samplers⟩, fun h => ⟨h.1, h.2.1, h.2.2⟩⟩
  constructor
  · rintro ⟨vs, hvs, hv⟩
    obtain ⟨cs, h, rfl⟩ := Except.map_eq_ok.mp hvs
    obtain ⟨fp, hfp, fb, hfb, fd, hfd, rfl⟩ := hcs.mp h
    simp only [contains_supported, List.forall_mem_append, and_assoc] at hv
    obtain ⟨hi, hv⟩ := hv
    obtain ⟨hins, houts, hvert⟩ := contains_ofInterface.mp hi
    have hfound := Findings.allowed_join.mp (hall.mpr hv)
    rw [List.forall_mem_append, List.forall_mem_append] at hfound
    obtain ⟨⟨hp, hb⟩, hd⟩ := hfound
    refine ⟨hins, houts, hvert, fun q hq => ?_, fun e he => ?_, fun d hmem => ?_⟩
    · exact findingsOfParameter_allowed.mp (Except.exists_mapM_eq_ok.mp ⟨fp, hfp, hp⟩ q hq)
    · exact findingsOfExpr_allowed.mp (Except.exists_mapM_eq_ok.mp ⟨fb, hfb, hb⟩ e he)
    · exact findingsOfDecl_allowed.mp (Except.exists_mapM_eq_ok.mp ⟨fd, hfd, hd⟩ d hmem)
  · rintro ⟨hins, houts, hvert, hp, hb, hd⟩
    obtain ⟨fp, hfp, hp⟩ := Except.exists_mapM_eq_ok.mpr
      fun q hq => findingsOfParameter_allowed.mpr (hp q hq)
    obtain ⟨fb, hfb, hb⟩ := Except.exists_mapM_eq_ok.mpr
      fun e he => findingsOfExpr_allowed.mpr (hb e he)
    obtain ⟨fd, hfd, hd⟩ := Except.exists_mapM_eq_ok.mpr
      fun d hmem => findingsOfDecl_allowed.mpr (hd d hmem)
    have hfound : (Findings.join (fp ++ fb ++ fd)).Allowed v := by
      rw [Findings.allowed_join, List.forall_mem_append, List.forall_mem_append]
      exact ⟨⟨hp, hb⟩, hd⟩
    refine ⟨_, Except.map_eq_ok.mpr ⟨_, hcs.mpr ⟨fp, hfp, fb, hfb, fd, hfd, rfl⟩, rfl⟩, ?_⟩
    simp only [contains_supported, List.forall_mem_append, and_assoc]
    exact ⟨contains_ofInterface.mpr ⟨hins, houts, hvert⟩, hall.mp hfound⟩

end ShaderDialects.Legality
