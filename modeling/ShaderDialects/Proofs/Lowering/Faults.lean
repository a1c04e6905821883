import Mathlib.Data.List.Induction
import Mathlib.Data.List.Nodup
import Mathlib.Data.List.Perm.Subperm
import ShaderDialects.Builtin.Standard
import ShaderDialects.Proofs.Lowering.Errors
import ShaderDialects.Proofs.Source.SamplerSearch

namespace ShaderDialects

namespace Program

variable {p : Program} {ds : List DeclId}

/-- The type is built of records of the program, nested no deeper than `depth`. -/
def Resolved (p : Program) : Nat → Ty → Prop
  | _, .leaf _ => True
  | 0, .record _ => False
  | depth + 1, .record i =>
      ∃ r, p.records[i]? = some r ∧ ∀ f ∈ r.fields, p.Resolved depth f.ty

theorem Resolved.leaf {depth : Nat} {t : Leaf} : p.Resolved depth (.leaf t) := by
  cases depth <;> trivial

theorem Resolved.mono {d d' : Nat} {ty : Ty} (h : p.Resolved d ty) (hd : d ≤ d') :
    p.Resolved d' ty := by
  induction d generalizing d' ty with
  | zero =>
      cases ty with
      | leaf t => exact .leaf
      | record i => exact h.elim
  | succ d ih =>
      cases ty with
      | leaf t => exact .leaf
      | record i =>
          obtain ⟨r, hr, hf⟩ := h
          obtain ⟨d', rfl⟩ : ∃ k, d' = k + 1 := ⟨d' - 1, by omega⟩
          exact ⟨r, hr, fun f hmem => ih (hf f hmem) (by omega)⟩

theorem Resolved.within {depth : Nat} {ty : Ty} (h : p.Resolved depth ty) : p.Within depth ty := by
  induction depth generalizing ty with
  | zero =>
      cases ty with
      | leaf t => exact .leaf 0 t
      | record i => exact h.elim
  | succ depth ih =>
      cases ty with
      | leaf t => exact .leaf (depth + 1) t
      | record i =>
          obtain ⟨r, hr, hf⟩ := h
          exact .record hr fun f hmem => ih (hf f hmem)

theorem Resolved.flattenWithin {depth : Nat} {ty : Ty} (h : p.Resolved depth ty) (name : String)
    (path : List Nat) : ∃ us, p.flattenWithin depth name path ty = .ok us :=
  (exists_flattenWithin h.within name path).imp fun _ => And.left

theorem Resolved.holdsSamplerWithin {depth : Nat} {ty : Ty} (h : p.Resolved depth ty) :
    ∃ b, p.holdsSamplerWithin depth ty = .ok b :=
  h.within.exists_holdsSamplerWithin

theorem Resolved.exists_record {i depth : Nat} (h : p.Resolved depth (.record i)) :
    ∃ r, p.record i = .ok r := by
  cases depth with
  | zero => exact h.elim
  | succ depth =>
      obtain ⟨r, hr, -⟩ := h
      exact ⟨r, record_eq_ok.mpr hr⟩

structure Knows (p : Program) (ds : List DeclId) : Prop where
  records : ∀ i, .record i ∈ ds → p.Resolved p.records.length (.record i)
  terms : ∀ i, .term i ∈ ds → ∃ t, p.terms[i]? = some t

theorem Knows.mono {ds' : List DeclId} (K : p.Knows ds) (h : ds' ⊆ ds) : p.Knows ds' :=
  ⟨fun i hi => K.records i (h hi), fun i hi => K.terms i (h hi)⟩

theorem Knows.ty (K : p.Knows ds) {ty : Ty} (h : ∀ d ∈ ty.mentions, d ∈ ds) :
    p.Resolved p.records.length ty := by
  cases ty with
  | leaf t => exact .leaf
  | record i => exact K.records i (h _ (by simp [Ty.mentions]))

end Program

namespace Linear

variable {p : Program} {order : List DeclId}

theorem resolved (h : Linear p order) {pre post : List DeclId} (ho : order = pre ++ post) {i : Nat}
    (hi : .record i ∈ pre) : p.Resolved (Closure.records (.placed pre)).length (.record i) := by
  induction pre using List.reverseRecOn generalizing i post with
  | nil => cases hi
  | append_singleton pre d ih =>
      rw [List.append_assoc, List.singleton_append] at ho
      have hle : (Closure.records (.placed pre)).length ≤
          (Closure.records (.placed (pre ++ [d]))).length := by
        simp [Closure.records]
      rcases List.mem_append.mp hi with hi | hi
      · exact (ih ho hi).mono hle
      · obtain rfl := List.mem_singleton.mp hi
        obtain ⟨r, hr, hm⟩ := h.record ho
        have hlen : (Closure.records (.placed (pre ++ [.record i]))).length =
            (Closure.records (.placed pre)).length + 1 := by
          simp [Closure.records]
        rw [hlen]
        refine ⟨r, hr, fun f hf => ?_⟩
        cases hty : f.ty with
        | leaf t => exact .leaf
        | record j =>
            have hj : .record j ∈ r.mentions :=
              List.mem_flatMap.mpr ⟨f, hf, by simp [hty, Ty.mentions]⟩
            exact ih ho (hm _ hj)

theorem length_records_le (h : Linear p order) :
    (Closure.records (.placed order)).length ≤ p.records.length := by
  have hmem {i : Nat} : i ∈ Closure.records (.placed order) ↔ .record i ∈ order := by
    rw [Closure.records, List.mem_filterMap]
    refine ⟨?_, fun hi => ⟨.record i, hi, rfl⟩⟩
    rintro ⟨d, hd, hi⟩
    cases d with
    | record j => exact Option.some.inj hi ▸ hd
    | term j => cases hi
  have hnodup : (Closure.records (.placed order)).Nodup := by
    refine List.Nodup.filterMap (fun d d' i hd hd' => ?_) h.nodup
    cases d <;> cases d' <;> simp_all
  have hsub : Closure.records (.placed order) ⊆ List.range p.records.length := by
    intro i hi
    obtain ⟨pre, post, ho⟩ := List.append_of_mem (hmem.mp hi)
    obtain ⟨r, hr, -⟩ := h.record ho
    exact List.mem_range.mpr (List.getElem?_eq_some_iff.mp hr).1
  have hle := (hnodup.subperm hsub).length_le
  rwa [List.length_range] at hle

theorem knows (h : Linear p order) : p.Knows order := by
  refine ⟨fun i hi => ?_, fun i hi => ?_⟩
  · exact (h.resolved (List.append_nil order).symm hi).mono h.length_records_le
  · obtain ⟨pre, post, ho⟩ := List.append_of_mem hi
    obtain ⟨t, ht, -⟩ := h.term ho
    exact ⟨t, ht⟩

end Linear

namespace Shader

variable {s : Shader} {d : DeclId}

theorem mem_references_of_parameter {q : Slot} (hq : q ∈ s.parameters) (hd : d ∈ q.ty.mentions) :
    d ∈ s.references := by
  have hall : d ∈ s.parameters.flatMap fun q => q.ty.mentions := List.mem_flatMap.mpr ⟨q, hq, hd⟩
  exact List.mem_eraseDups.mpr
    (List.mem_append_left _ (List.mem_append_left _ (List.mem_append_right _ hall)))

theorem mem_references_of_step {step : Step} (hs : step ∈ s.steps) (hd : d ∈ step.binderMentions) :
    d ∈ s.references := by
  have hall : d ∈ s.steps.flatMap Step.binderMentions := List.mem_flatMap.mpr ⟨step, hs, hd⟩
  exact List.mem_eraseDups.mpr (List.mem_append_left _ (List.mem_append_right _ hall))

theorem mem_references_of_expr {e : Expr} (he : e ∈ s.exprs) (hd : d ∈ e.mentions) :
    d ∈ s.references := by
  have hall : d ∈ s.exprs.flatMap Expr.mentions := List.mem_flatMap.mpr ⟨e, he, hd⟩
  exact List.mem_eraseDups.mpr (List.mem_append_right _ hall)

end Shader

namespace Lowering

/-- The error is about a reference that cannot be followed: to nothing, or to something that is not
declared yet. -/
def Error.Stray : Error → Prop
  | undeclared _ | fault _ => True
  | builtin _ | malformed _ _ => False

theorem narrow_stray (shader : String) : Narrow Error.Stray shader :=
  ⟨fun _ => not_false, fun _ _ => not_false⟩

def Faultless {α : Type} (x : Except Error α) : Prop := ∀ f, x ≠ .error (.fault f)

/-- The declarations of a list can all be followed and are declared, and so are the records that its
records hold. -/
structure Context.Provides (c : Context) (ds : List DeclId) : Prop where
  knows : c.program.Knows ds
  structs : ∀ i, .record i ∈ ds → ∃ names, c.structs.lookup i = some names
  terms : ∀ i, .term i ∈ ds → ∃ form, c.terms.lookup i = some form
  nested : ∀ i r, .record i ∈ ds → c.program.records[i]? = some r → ∀ d ∈ r.mentions, d ∈ ds

namespace Context

variable {c : Context} {ds : List DeclId}

theorem exists_record {i depth : Nat} (h : c.program.Resolved depth (.record i)) :
    ∃ r, c.record i = .ok r :=
  h.exists_record.imp fun _ => Except.mapError_of_ok

theorem constructible_avoids {i : Nat}
    (h : c.program.Resolved c.program.records.length (.record i)) :
    (c.constructible i).Avoids Error.Stray := by
  obtain ⟨b, hb⟩ := h.holdsSamplerWithin
  exact avoids_constructible (.of_exists ⟨b, Except.mapError_eq_ok.mpr hb⟩)
    (.of_exists (exists_record h)) fun _ => not_false

namespace Provides

variable (P : c.Provides ds)
include P

theorem finds : c.Finds Error.Stray (· ∈ ds) where
  structNames i hi := .of_exists ((P.structs i hi).imp fun _ => structNames_eq_ok.mpr)
  term i hi := .of_exists ((P.knows.terms i hi).imp fun _ ht =>
    Except.mapError_eq_ok.mpr (Program.term_eq_ok.mpr ht))
  termForm i hi := .of_exists ((P.terms i hi).imp fun _ => termForm_eq_ok.mpr)

/-- The records of fields are met where a parameter is rebuilt, and maybe nowhere else. -/
theorem rebuild {q : Nat} {path : List Nat} {ty : Ty} (hm : ∀ d ∈ ty.mentions, d ∈ ds) :
    (c.rebuild q path ty).Avoids Error.Stray := by
  let R (depth : Nat) (ty : Ty) : Prop := c.program.Resolved depth ty ∧
    depth ≤ c.program.records.length ∧ ∀ d ∈ ty.mentions, d ∈ ds
  have hown (depth i : Nat) (h : R depth (.record i)) : (c.constructible i).Avoids Error.Stray ∧
      (c.record i).Avoids Error.Stray ∧ (c.structNames i).Avoids Error.Stray := by
    obtain ⟨hr, hd, hm⟩ := h
    exact ⟨constructible_avoids (hr.mono hd), .of_exists (exists_record hr),
      P.finds.structNames i (hm _ List.mem_cons_self)⟩
  have hfields (depth i : Nat) (r : Record) (h : R (depth + 1) (.record i))
      (hr : c.program.records[i]? = some r) (f : Field) (hf : f ∈ r.fields) : R depth f.ty := by
    obtain ⟨⟨r', hr', hfs⟩, hd, hm⟩ := h
    cases hr.symm.trans hr'
    refine ⟨hfs f hf, by omega, fun d hd => P.nested i r (hm _ List.mem_cons_self) hr d ?_⟩
    exact List.mem_flatMap.mpr ⟨f, hf, hd⟩
  exact avoids_rebuildWithin (narrow_stray _) (fun i h => h.1.elim) hown hfields
    ⟨P.knows.ty hm, Nat.le_refl _, hm⟩

theorem ownAvoids {e : Expr} (hm : ∀ d ∈ e.mentions, d ∈ ds) :
    ∀ x ∈ e.wholes, c.OwnAvoids Error.Stray x := by
  intro x hx
  have hx : ∀ d ∈ x.mentions, d ∈ ds := fun d hd => hm d (Expr.mentions_of_wholes hx hd)
  have hown {d : DeclId} (hd : d ∈ x.ownMentions) : d ∈ ds := hx d (Expr.mentions_of_own hd)
  refine P.finds.ownAvoids (narrow_stray _) hx (fun q path _ => P.rebuild fun d hd => ?_) ?_
  · exact hown (List.mem_append_left _ hd)
  · rintro n r fields rfl
    exact constructible_avoids (P.knows.records r (hown (by simp [Expr.ownMentions])))

end Provides

end Context

section Declares

variable {g : Setting} {s s' : Progress} {ds : List DeclId}

theorem exists_lookup_cons {β : Type} {i j : Nat} {b : β} {bs : List (Nat × β)}
    (h : j ≠ i → ∃ b', bs.lookup j = some b') :
    ∃ b', List.lookup j ((i, b) :: bs) = some b' := by
  by_cases hj : j = i
  · subst hj
    exact ⟨b, by simp⟩
  · obtain ⟨b', hb'⟩ := h hj
    exact ⟨b', by rw [List.lookup_cons, beq_false_of_ne hj, hb']⟩

theorem Context.Provides.record {c : Context} (P : c.Provides ds) {i : Nat} {r : Record}
    (K : c.program.Knows (ds ++ [.record i])) (hr : c.program.records[i]? = some r)
    (hm : ∀ d ∈ r.mentions, d ∈ ds) (names : StructNames) :
    Context.Provides { c with structs := (i, names) :: c.structs } (ds ++ [.record i]) := by
  refine ⟨K, fun j hj => ?_, fun j hj => P.terms j (by simpa using hj), fun j r' hj hr' e he => ?_⟩
  · exact exists_lookup_cons fun hne => P.structs j (by simpa [hne] using hj)
  · refine List.mem_append_left _ ?_
    rcases List.mem_append.mp hj with hj | hj
    · exact P.nested j r' hj hr' e he
    · obtain rfl : j = i := by simpa using hj
      cases hr.symm.trans hr'
      exact hm e he

theorem Context.Provides.term {c : Context} (P : c.Provides ds) {i : Nat}
    (K : c.program.Knows (ds ++ [.term i])) (form : TermForm) :
    Context.Provides { c with terms := (i, form) :: c.terms } (ds ++ [.term i]) := by
  refine ⟨K, fun j hj => P.structs j (by simpa using hj), fun j hj => ?_, fun j r hj hr e he => ?_⟩
  · exact exists_lookup_cons fun hne => P.terms j (by simpa [hne] using hj)
  · exact List.mem_append_left _ (P.nested j r (by simpa using hj) hr e he)

theorem Declares.provides {order post : List DeclId} {d : DeclId} (h : Declares g s d s')
    (hl : Linear g.program order) (ho : order = ds ++ d :: post) (P : (g.context s).Provides ds) :
    (g.context s').Provides (ds ++ [d]) := by
  have K : g.program.Knows (ds ++ [d]) := by
    refine hl.knows.mono ?_
    rw [ho, List.append_cons ds d post]
    exact List.subset_append_left _ _
  cases h with
  | record hr ht =>
      obtain ⟨r, hr', hm⟩ := hl.record ho
      cases hr.symm.trans hr'
      exact P.record K hr hm _
  | routine | native => exact P.term K _
  | @emulation i t symbol signature e =>
      cases hb : e.build signature with
      | function | constant => exact P.term K _

theorem provides_start (supply : Identifier.Supply) :
    (g.context ⟨supply, [], [], []⟩).Provides [] :=
  ⟨⟨nofun, nofun⟩, nofun, nofun, nofun⟩

/-- A declaration finds what it refers to among those before it. -/
theorem ownAvoids_of_linear {order pre post : List DeclId} {d : DeclId}
    (h : Linear g.program order) (ho : order = pre ++ d :: post)
    (P : (g.context s).Provides pre) : g.OwnAvoids Error.Stray s d := by
  cases d with
  | record i =>
      obtain ⟨r, hr, hm⟩ := h.record ho
      refine ⟨.of_exists ⟨r, Context.record_eq_ok.mpr hr⟩, fun r' hr' f hf => ?_⟩
      cases hr.symm.trans hr'
      exact P.finds.ty fun d hd => hm d (List.mem_flatMap.mpr ⟨f, hf, hd⟩)
  | term i =>
      obtain ⟨t, ht, hm⟩ := h.term ho
      have hterm : (g.context s).term i = .ok t :=
        Except.mapError_eq_ok.mpr (Program.term_eq_ok.mpr ht)
      refine ⟨.of_exists ⟨t, hterm⟩, fun t' ht' r hr => ?_⟩
      cases ht.symm.trans ht'
      simp only [Routine.mentions hr, List.forall_mem_append, List.forall_mem_flatMap] at hm
      obtain ⟨⟨hparams, hresult⟩, hbody⟩ := hm
      exact ⟨fun b hb => P.finds.ty (hparams b hb), P.finds.ty hresult, P.ownAvoids hbody,
        fun _ _ => not_false⟩

theorem declareAll_avoids {supply : Identifier.Supply} {closure : Closure}
    (hl : Linear g.program closure.order) : (g.declareAll supply closure).Avoids Error.Stray := by
  refine Except.Avoids.foldlM (motive := fun ds s => (g.context s).Provides ds)
    (provides_start supply) ?_
  intro pre d post s ho P
  exact ⟨Setting.avoids_declare (narrow_stray _) (ownAvoids_of_linear hl ho P),
    fun s' hs' => (declare_eq_ok.mp hs').provides hl ho P⟩

theorem provides_of_declareAll {supply : Identifier.Supply} {closure : Closure}
    (hl : Linear g.program closure.order) (h : g.declareAll supply closure = .ok s) :
    (g.context s).Provides closure.order :=
  declareAll_induct (motive := fun ds s => (g.context s).Provides ds) h (provides_start supply)
    fun _ _ _ _ _ ho P hd => hd.provides hl ho P

end Declares

section Lower

variable {p : Program} {s : Shader} {closure : Closure}

theorem exists_assign_of_linear (hl : Linear p closure.order) (hs : s.references ⊆ closure.order)
    (supply : Identifier.Supply) : ∃ i, Interface.assign p s supply = .ok i := by
  have hflat (q : Slot) (hq : q ∈ s.parameters) : ∃ us, p.flatten q.name q.ty = .ok us := by
    refine (hl.knows.ty fun d hd => hs ?_).flattenWithin q.name []
    exact Shader.mem_references_of_parameter hq hd
  obtain ⟨us, hus⟩ := List.exists_forall₂ hflat
  exact ⟨_, Except.bind_eq_ok.mpr ⟨us, Except.mapM_eq_ok.mpr hus, rfl⟩⟩

theorem exists_assign (h : Closure.ofShader p s = .ok closure) (supply : Identifier.Supply) :
    ∃ i, Interface.assign p s supply = .ok i := by
  obtain ⟨hl, hs⟩ := Closure.ofShader_spec h
  exact exists_assign_of_linear hl hs supply

theorem lower_avoids (hl : Linear p closure.order) (hs : s.references ⊆ closure.order)
    (v : Version) (table : Table) : (lower p s closure v table).Avoids Error.Stray := by
  refine avoids_lower (narrow_stray _) ?_ (fun _ _ => declareAll_avoids hl) ?_
  · obtain ⟨r, hr⟩ := exists_assign_of_linear hl hs (.forShader table.nativeNames)
    exact .of_exists ⟨r, Except.mapError_eq_ok.mpr hr⟩
  · intro interface supply progress hp
    have P := provides_of_declareAll hl hp
    refine Setting.avoids_lowerMain (narrow_stray _) (fun b value hb => P.finds.ty fun d hd => ?_)
      (fun e he => P.ownAvoids fun d hd => hs (Shader.mem_references_of_expr he hd))
      fun _ _ => not_false
    exact hs (Shader.mem_references_of_step hb hd)

theorem faultless_lower (h : Closure.ofShader p s = .ok closure) (v : Version) (table : Table) :
    Faultless (lower p s closure v table) := by
  obtain ⟨hl, hs⟩ := Closure.ofShader_spec h
  exact fun f => lower_avoids hl hs v table (.fault f) trivial

/-- With a closure that was accepted and holds all that the shader refers to, lowering never misses a
declaration, nor meets a reference to nothing. The closure found for the shader is one of them. -/
theorem lower_ne_undeclared {order : List DeclId}
    (h : (Closure.ofOrder p order = .ok closure ∧ s.references ⊆ order) ∨
      Closure.ofShader p s = .ok closure) (v : Version) (table : Table) :
    (∀ name, lower p s closure v table ≠ .error (.undeclared name)) ∧
      ∀ fault, lower p s closure v table ≠ .error (.fault fault) := by
  obtain ⟨hl, hs⟩ : Linear p closure.order ∧ s.references ⊆ closure.order := by
    rcases h with ⟨ho, hs⟩ | h
    · obtain ⟨rfl, hl⟩ := Closure.ofOrder_eq_ok.mp ho
      exact ⟨hl, hs⟩
    · exact Closure.ofShader_spec h
  have havoids := lower_avoids hl hs v table
  exact ⟨fun name => havoids (.undeclared name) trivial, fun fault => havoids (.fault fault) trivial⟩

end Lower

namespace Lamps

/-! A parameter is handed on whole, so a record is constructed that no expression mentions. -/

def float : Ty := .leaf .float

def program : Program where
  records := [⟨"light", [⟨"level", float⟩], {}⟩, ⟨"lamp", [⟨"light", .record 0⟩], {}⟩]
  terms := [⟨"level", .function [⟨0, "lamp", .record 1⟩] float
    (.literal ⟨float, {}⟩ (.float ⟨0x3F800000⟩)), {}⟩]

def shader : Shader where
  name := "lit"
  stage := .fragment
  outputs := [⟨⟨"depth", float, {}⟩, .depth⟩]
  parameters := [⟨"lamp", .record 1, {}⟩]
  assignments := [⟨0, .apply ⟨float, {}⟩ 0 [.parameter ⟨.record 1, {}⟩ 0]⟩]

def order : List DeclId := [.record 0, .record 1, .term 0]

end Lamps

open Lamps in
/-- The shader refers to the outer record alone; without the inner one it cannot be lowered. -/
theorem lower_ne_undeclared_lamp :
    Closure.ofOrder program order = .ok (.placed order) ∧ shader.references = [.record 1, .term 0] ∧
      (∀ v table, (∀ name, lower program shader (.placed order) v table ≠ .error (.undeclared name)) ∧
        ∀ fault, lower program shader (.placed order) v table ≠ .error (.fault fault)) ∧
      (lower program shader (.placed order) (.full .v330) .standard).isOk ∧
      lower program shader (.placed [.record 1, .term 0]) (.full .v330) .standard =
        .error (.undeclared "light") := by
  have ho : Closure.ofOrder program order = .ok (.placed order) := rfl
  have hs : shader.references = [.record 1, .term 0] := rfl
  refine ⟨ho, hs, fun v table => lower_ne_undeclared (.inl ⟨ho, ?_⟩) v table, ?_, rfl⟩
  · rw [hs]
    decide
  · decide +kernel

end Lowering

end ShaderDialects
