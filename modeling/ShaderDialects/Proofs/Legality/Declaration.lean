import ShaderDialects.Proofs.Legality.Emulation
import ShaderDialects.Proofs.Legality.Expression
import ShaderDialects.Proofs.Lowering.Declaration

namespace ShaderDialects.Lowering

open Dialect (Stmt Variable)
open Identifier (Supply)
open Legality

variable {g : Setting} {s s' : Progress} {d : DeclId}

theorem legalTys_iff {ι : Type} {c : Context} {v : Version} {ty : ι → Ty} {fs : List ι}
    {tys : List Dialect.Ty} {names : List String}
    (h : List.Forall₂ (fun f t => c.ty (ty f) = .ok t) fs tys) (hn : names.length = fs.length) :
    (∀ x ∈ List.zipWith Variable.mk names tys, LegalTy v x.ty) ↔ ∀ f ∈ fs, TyAllowed v (ty f) := by
  induction h generalizing names with
  | nil => simp
  | cons ht _ ih =>
      cases names with
      | nil => simp at hn
      | cons n names =>
          rw [List.zipWith_cons_cons, List.forall_mem_cons, List.forall_mem_cons, legalTy_of_ty ht,
            ih (by simpa using hn)]

theorem termAllowed_routine {p : Program} {table : Table} {stage : Stage} {v : Version}
    {k : TermKind} {r : Routine} (hr : Routine.ofKind? k = some r) :
    TermAllowed p table stage v k ↔
      (∀ b ∈ r.params, TyAllowed v b.ty) ∧ TyAllowed v r.result ∧ ExprAllowed p v r.body := by
  cases k with
  | function params result body =>
      cases hr
      rfl
  | value ty body =>
      cases hr
      simp [TermAllowed]
  | external symbol signature => cases hr

theorem declareEmulation_decls (s : Progress) (i : Nat) (t : Term) (symbol : String)
    (body : Emulation.Body) :
    (Setting.declareEmulation s i t symbol body).decls =
      s.decls ++ [⟨(s.supply.fresh (t.name ++ "_emulated")).1, .emulation symbol, body.kind⟩] := by
  cases body <;> rfl

section Forward

structure LegalProgress (g : Setting) (s : Progress) : Prop where
  decls : ∀ decl ∈ s.decls, LegalDecl g.table g.shader.stage g.version decl.kind
  natives : ∀ i form, s.terms.lookup i = some (.native form) →
    Available g.table g.shader.stage g.version form

theorem LegalProgress.declare (P : LegalProgress g s)
    (hdecls : ∃ decl, s'.decls = s.decls ++ [decl] ∧
      LegalDecl g.table g.shader.stage g.version decl.kind)
    (hterms : ∀ i form, s'.terms.lookup i = some (.native form) →
      s.terms.lookup i = some (.native form)) : LegalProgress g s' := by
  obtain ⟨decl, hd, hl⟩ := hdecls
  refine ⟨fun decl' h => ?_, fun i form h => P.natives i form (hterms i form h)⟩
  rw [hd] at h
  rcases List.mem_append.mp h with h | h
  · exact P.decls decl' h
  · obtain rfl := List.mem_singleton.mp h
    exact hl

theorem lookup_of_native {i j : Nat} {form : TermForm} {native : Form}
    {terms : List (Nat × TermForm)} (hf : ∀ f, form ≠ .native f)
    (h : List.lookup j ((i, form) :: terms) = some (.native native)) :
    terms.lookup j = some (.native native) := by
  rcases lookup_cons_eq_some h with ⟨_, rfl⟩ | h
  · exact absurd rfl (hf native)
  · exact h

theorem lookup_of_emulation {i j : Nat} {t : Term} {symbol : String} {body : Emulation.Body}
    {native : Form}
    (h : (Setting.declareEmulation s i t symbol body).terms.lookup j = some (.native native)) :
    s.terms.lookup j = some (.native native) := by
  cases body with
  | function params result body | constant leaf value =>
      refine lookup_of_native ?_ h
      exact nofun

theorem Routine.form_ne_native {k : TermKind} {r : Routine} (hr : Routine.ofKind? k = some r)
    (name : String) (f : Form) : r.form name ≠ .native f := by
  cases k with
  | function params result body | value ty body =>
      cases hr
      simp
  | external symbol signature => cases hr

/-- Emulations are listed ones, and the constructors that they call are there where the types of
their signatures are. -/
def ConstructorsAvailable (p : Program) (table : Table) (stage : Stage) (v : Version) (d : DeclId) :
    Prop :=
  ∀ i t symbol signature e, d = .term i → p.terms[i]? = some t →
    t.kind = .external symbol signature →
    table.resolve symbol signature.kind v stage = .ok (.emulated e) →
    (∀ leaf ∈ signature.leaves, leafRule leaf v = none) →
    e.isCustom = false ∧ ∀ leaf ∈ constructed? e signature, Available table stage v (.call leaf.name)

theorem Declares.legal (h : Declares g s d s') (P : LegalProgress g s)
    (hd : DeclAllowed g.program g.table g.shader.stage g.version d)
    (ht : ∀ i t, d = .term i → g.program.terms[i]? = some t → t.kind.Noted g.program g.shader)
    (hb : ∀ form ∈ Emulation.basis, Available g.table g.shader.stage g.version form)
    (hc : ConstructorsAvailable g.program g.table g.shader.stage g.version d) :
    LegalProgress g s' := by
  cases h with
  | record hr htys =>
      obtain ⟨r', hr', hfields⟩ := hd
      cases hr.symm.trans hr'
      refine P.declare ⟨_, rfl, legalDecl_struct.mpr ?_⟩ fun _ _ h => h
      exact (legalTys_iff htys (Program.length_fieldNames_of_record hr)).mpr hfields
  | @routine i t r tys rt ss σ hterm hr hp hres hbody =>
      obtain ⟨t', hterm', hallowed⟩ := hd
      cases hterm.symm.trans hterm'
      obtain ⟨hparams, hresult, he⟩ := (termAllowed_routine hr).mp hallowed
      have hnoted := Routine.noted hr (ht i t rfl hterm)
      obtain ⟨hcode, _⟩ := Lowers.legal P.natives hbody hnoted he.uses
      refine P.declare ⟨_, rfl, legalDecl_function.mpr ⟨?_, ?_, hcode⟩⟩ fun _ _ =>
        lookup_of_native (Routine.form_ne_native hr _)
      · exact (legalTys_iff hp (length_routineScope s t r)).mpr hparams
      · exact (legalTy_of_ty hres).mpr hresult
  | native hterm hk hresolve =>
      refine ⟨P.decls, fun j form hj => ?_⟩
      rcases lookup_cons_eq_some hj with ⟨_, hform⟩ | hj
      · cases hform
        exact Table.nativeAvailability_of_resolve hresolve
      · exact P.natives j form hj
  | @emulation i t symbol signature e hterm hk hresolve =>
      obtain ⟨t', hterm', hallowed⟩ := hd
      cases hterm.symm.trans hterm'
      rw [hk] at hallowed
      have hleaves := hallowed.2
      obtain ⟨hlisted, hcalls⟩ := hc i t symbol signature e rfl hterm hk hresolve hleaves
      have hlegal := legalDecl_build hb hlisted hleaves hcalls
      exact P.declare ⟨_, declareEmulation_decls _ _ _ _ _, hlegal⟩ fun _ _ => lookup_of_emulation

theorem legal_declareAll {supply : Supply} {closure : Closure}
    (h : g.declareAll supply closure = .ok s)
    (hd : ∀ d ∈ closure.order, DeclAllowed g.program g.table g.shader.stage g.version d)
    (ht : closure.AllTerms g.program fun t => t.kind.Noted g.program g.shader)
    (hb : ∀ form ∈ Emulation.basis, Available g.table g.shader.stage g.version form)
    (hc : ∀ d ∈ closure.order,
      ConstructorsAvailable g.program g.table g.shader.stage g.version d) : LegalProgress g s := by
  refine declareAll_induct (motive := fun _ s => LegalProgress g s) h ⟨nofun, nofun⟩ ?_
  intro pre d post s s' ho P hs
  have hmem : d ∈ closure.order := by simp [ho]
  refine hs.legal P (hd d hmem) (fun i t hi => ?_) hb (hc d hmem)
  exact ht i t (hi ▸ hmem)

end Forward

section Backward

theorem Declares.record_allowed {i : Nat} (h : Declares g s (.record i) s')
    (hl : ∀ decl ∈ s'.decls, LegalDecl g.table g.shader.stage g.version decl.kind) :
    ∃ r, g.program.records[i]? = some r ∧ ∀ f ∈ r.fields, TyAllowed g.version f.ty := by
  cases h with
  | @record i r tys hr htys =>
      have hfields := legalDecl_struct.mp (hl _ (List.mem_append_right _ (List.mem_singleton_self _)))
      exact ⟨r, hr, (legalTys_iff htys (Program.length_fieldNames_of_record hr)).mp hfields⟩

theorem Declares.routine_allowed {i : Nat} {t : Term} {r : Routine}
    (h : Declares g s (.term i) s') (ht : g.program.terms[i]? = some t)
    (hr : Routine.ofKind? t.kind = some r)
    (hl : ∀ decl ∈ s'.decls, LegalDecl g.table g.shader.stage g.version decl.kind) :
    (∀ b ∈ r.params, TyAllowed g.version b.ty) ∧ TyAllowed g.version r.result ∧
      ∃ σ ss σ', Lowers (g.context s) (.into r.body .result) σ ss σ' ∧
        LegalCode g.table g.shader.stage g.version ss := by
  cases h with
  | @routine i t' r' tys rt ss σ ht' hr' hp hres hbody =>
      cases ht.symm.trans ht'
      cases hr.symm.trans hr'
      obtain ⟨hparams, hresult, hcode⟩ :=
        legalDecl_function.mp (hl _ (List.mem_append_right _ (List.mem_singleton_self _)))
      exact ⟨(legalTys_iff hp (length_routineScope s t r)).mp hparams,
        (legalTy_of_ty hres).mp hresult, _, ss, σ, hbody, hcode⟩
  | native ht' hk | emulation ht' hk =>
      cases ht.symm.trans ht'
      simp [hk, Routine.ofKind?] at hr

def SignatureAllowed (v : Version) : TermKind → Prop
  | .external _ signature => ∀ leaf ∈ signature.leaves, leafRule leaf v = none
  | _ => True

instance (v : Version) (k : TermKind) : Decidable (SignatureAllowed v k) :=
  match k with
  | .external _ signature =>
      inferInstanceAs (Decidable (∀ leaf ∈ signature.leaves, leafRule leaf v = none))
  | .function _ _ _ | .value _ _ => instDecidableTrue

variable {supply : Supply} {closure : Closure} (h : g.declareAll supply closure = .ok s)
  (hl : ∀ decl ∈ s.decls, LegalDecl g.table g.shader.stage g.version decl.kind)
  (hsig : closure.AllTerms g.program fun t => SignatureAllowed g.version t.kind)
include h hl hsig

omit h hl in
theorem signature_allowed {i : Nat} {t : Term} {symbol : String} {signature : Signature}
    (hi : .term i ∈ closure.order) (ht : g.program.terms[i]? = some t)
    (hk : t.kind = .external symbol signature) :
    ∀ leaf ∈ signature.leaves, leafRule leaf g.version = none := by
  have hallowed : SignatureAllowed g.version t.kind := hsig i t hi ht
  rwa [hk] at hallowed

theorem typesAllowed_of_legal (hins : ∀ q ∈ g.shader.inputs, TyAllowed g.version q.ty)
    (hparams : ∀ q ∈ g.shader.parameters, TyAllowed g.version q.ty) :
    TypesAllowed g.program g.shader g.version closure.order := by
  refine ⟨hins, hparams, fun i r hi hr => ?_, fun i ty hi hty => ?_, fun i ty hi hty => ?_⟩
  · obtain ⟨s₁, s₂, hd, hsub⟩ := exists_declares h hi
    obtain ⟨r', hr', hf⟩ := hd.record_allowed fun decl hdecl => hl decl (hsub hdecl)
    cases hr.symm.trans hr'
    exact hf
  · obtain ⟨s₁, s₂, hd, hsub⟩ := exists_declares h hi
    obtain ⟨t, ht, ⟨body, hk⟩ | ⟨symbol, leaf, hk, rfl⟩⟩ := Program.valueTy?_cases hty
    · have hr : Routine.ofKind? t.kind = some ⟨.value, [], ty, body⟩ := by rw [hk]; rfl
      exact (hd.routine_allowed ht hr fun decl hdecl => hl decl (hsub hdecl)).2.1
    · intro leaf' hleaf
      cases hleaf
      exact signature_allowed hsig hi ht hk leaf (by simp [Signature.leaves])
  · obtain ⟨s₁, s₂, hd, hsub⟩ := exists_declares h hi
    obtain ⟨⟨tys, ty⟩, hfun, rfl⟩ := Option.map_eq_some_iff.mp hty
    obtain ⟨t, ht, ⟨params, body, hk, rfl⟩ | ⟨symbol, leaves, leaf, hk, rfl, rfl⟩⟩ :=
      Program.functionTy?_cases hfun
    · have hr : Routine.ofKind? t.kind = some ⟨.function, params, ty, body⟩ := by rw [hk]; rfl
      exact (hd.routine_allowed ht hr fun decl hdecl => hl decl (hsub hdecl)).2.1
    · intro leaf' hleaf
      cases hleaf
      exact signature_allowed hsig hi ht hk leaf (by simp [Signature.leaves])

/-- If what the declarations of a closure are lowered to is legal, they are allowed. -/
theorem declAllowed_of_legal (K : TypesAllowed g.program g.shader g.version closure.order)
    (hlinear : Linear g.program closure.order)
    (ht : closure.AllTerms g.program fun t => t.kind.Noted g.program g.shader) {d : DeclId}
    (hmem : d ∈ closure.order) : DeclAllowed g.program g.table g.shader.stage g.version d := by
  obtain ⟨s₁, s₂, hd, hsub⟩ := exists_declares h hmem
  have hlegal : ∀ decl ∈ s₂.decls, LegalDecl g.table g.shader.stage g.version decl.kind :=
    fun decl hdecl => hl decl (hsub hdecl)
  cases d with
  | record i => exact hd.record_allowed hlegal
  | term i =>
      obtain ⟨t, hterm⟩ := hd.term
      refine ⟨t, hterm, ?_⟩
      cases hr : Routine.ofKind? t.kind with
      | none =>
          cases hk : t.kind with
          | function params result body | value ty body => simp [hk, Routine.ofKind?] at hr
          | external symbol signature =>
              exact ⟨resolved_of_declareAll h hmem hterm hk, signature_allowed hsig hmem hterm hk⟩
      | some r =>
          have hmentions : ∀ d ∈ t.kind.mentions, d ∈ closure.order := by
            obtain ⟨pre, post, ho⟩ := List.append_of_mem hmem
            obtain ⟨t', hterm', hm⟩ := hlinear.term ho
            cases hterm.symm.trans hterm'
            intro d hd
            simp [ho, hm d hd]
          obtain ⟨hparams, hresult, σ, ss, σ', hbody, hcode⟩ := hd.routine_allowed hterm hr hlegal
          refine (termAllowed_routine hr).mpr ⟨hparams, hresult, ?_⟩
          refine Lowers.allowed K rfl hbody (Routine.noted hr (ht i t hmem hterm)) ?_ ?_ hcode trivial
          · intro d hd
            exact hmentions d (by rw [Routine.mentions hr]; exact List.mem_append_right _ hd)
          · intro id ty hty
            obtain ⟨k, b, hb, _, rfl⟩ := lookup_params_eq_some hty
            exact hparams b (List.mem_of_getElem? hb)

end Backward

end ShaderDialects.Lowering
