import ShaderDialects.Proofs.Legality.Declaration
import ShaderDialects.Proofs.Lowering.Shader

namespace ShaderDialects

namespace Dialect

def Expr.FormsIn (F : Form → Prop) (e : Expr) : Prop := ∀ x ∈ e.nodes, ∀ form ∈ x.form?, F form

variable {F : Form → Prop}

theorem Expr.formsIn_iff {e : Expr} :
    e.FormsIn F ↔ (∀ form ∈ e.form?, F form) ∧ ∀ x ∈ e.children, x.FormsIn F := by
  rw [FormsIn, nodes_eq]
  simp only [List.forall_mem_cons, List.forall_mem_flatMap, FormsIn]

theorem Expr.formsIn_of_form?_eq_none {e : Expr} (h : e.form? = none)
    (hc : ∀ x ∈ e.children, x.FormsIn F) : e.FormsIn F :=
  formsIn_iff.mpr ⟨by simp [h], hc⟩

theorem Expr.formsIn_var (n : String) : (Expr.var n).FormsIn F :=
  formsIn_of_form?_eq_none rfl nofun

theorem Expr.formsIn_literal (l : Literal) : (Expr.literal l).FormsIn F :=
  formsIn_of_form?_eq_none rfl nofun

theorem Expr.formsIn_user {n : String} {args : List Expr} (h : ∀ x ∈ args, x.FormsIn F) :
    (Expr.user n args).FormsIn F :=
  formsIn_of_form?_eq_none rfl h

def Stmt.FormsIn (F : Form → Prop) (ss : List Stmt) : Prop := ∀ e ∈ exprsOf ss, e.FormsIn F

theorem Stmt.formsIn_nil : Stmt.FormsIn F [] := nofun

theorem Stmt.FormsIn.append {ss ss' : List Stmt} (h : FormsIn F ss) (h' : FormsIn F ss') :
    FormsIn F (ss ++ ss') := by
  rw [FormsIn, exprsOf_append, List.forall_mem_append]
  exact ⟨h, h'⟩

theorem Stmt.FormsIn.cons {s : Stmt} {ss : List Stmt} (h : ∀ e ∈ s.exprs, e.FormsIn F)
    (h' : FormsIn F ss) : FormsIn F (s :: ss) := by
  rw [FormsIn, exprsOf, List.forall_mem_append]
  exact ⟨h, h'⟩

theorem Stmt.FormsIn.declare {n : String} {ty : Ty} {ss : List Stmt} (h : FormsIn F ss) :
    FormsIn F (.declare n ty none :: ss) :=
  .cons (by simp [exprs]) h

end Dialect

theorem Legality.LegalExpr.formsIn {table : Table} {stage : Stage} {v : Version} {x : Dialect.Expr}
    (h : LegalExpr table stage v x) : x.FormsIn (Available table stage v) :=
  fun y hy _ hform => (nodeViolation?_eq_none_of_form hform).mp (h y hy)

namespace Lowering

open Dialect (Stmt OutputWrite)
open Identifier (Supply)
open Legality

variable {F : Form → Prop}

section Expressions

variable {c : Context} (hn : ∀ i form, c.terms.lookup i = some (.native form) → F form)

theorem formsIn_rebuildWithin {depth parameter : Nat} {path : List Nat} {ty : Ty}
    {x : Dialect.Expr} (h : c.rebuildWithin depth parameter path ty = .ok x) : x.FormsIn F :=
  Context.rebuildWithin_induct h (fun _ _ _ => Dialect.Expr.formsIn_var _)
    fun _ _ _ _ => Dialect.Expr.formsIn_user

theorem formsIn_write {place : Place} {x : Dialect.Expr} (h : x.FormsIn F) :
    Stmt.FormsIn F [place.write x] := by
  cases place with
  | result | assign name => exact .cons (List.forall_mem_singleton.mpr h) Stmt.formsIn_nil

include hn

theorem formsIn_readTerm {t : Nat} {x : Dialect.Expr} (h : c.readTerm t = .ok x) :
    x.FormsIn F := by
  obtain ⟨hchildren, -, hforms⟩ := readTerm_own h
  refine Dialect.Expr.formsIn_iff.mpr ⟨fun form hform => hn t form (hforms form hform), ?_⟩
  simp [hchildren]

theorem formsIn_applyTerm {f : Nat} {xs : List Dialect.Expr} {x : Dialect.Expr}
    (h : c.applyTerm f xs = .ok x) (hxs : ∀ y ∈ xs, y.FormsIn F) : x.FormsIn F := by
  obtain ⟨rfl, -, hforms⟩ := applyTerm_own h
  exact Dialect.Expr.formsIn_iff.mpr ⟨fun form hform => hn f form (hforms form hform), hxs⟩

/-- Whatever is lowered, the native forms in it are those that its terms refer to. -/
theorem Lowers.formsIn {task : Task} {σ σ' : Scope} {ss : List Stmt}
    (h : Lowers c task σ ss σ') : Stmt.FormsIn F ss ∧ task.Gives (Dialect.Expr.FormsIn F) := by
  induction h with
  | literal => exact ⟨Stmt.formsIn_nil, Dialect.Expr.formsIn_literal _⟩
  | bound | input => exact ⟨Stmt.formsIn_nil, Dialect.Expr.formsIn_var _⟩
  | term hx => exact ⟨Stmt.formsIn_nil, formsIn_readTerm hn hx⟩
  | path _ hx => exact ⟨Stmt.formsIn_nil, formsIn_rebuildWithin hx⟩
  | apply _ hx ih => exact ⟨ih.1, formsIn_applyTerm hn hx ih.2⟩
  | construct _ _ _ ih => exact ⟨ih.1, Dialect.Expr.formsIn_user ih.2⟩
  | field _ _ _ ih | swizzle _ ih =>
      exact ⟨ih.1, Dialect.Expr.formsIn_of_form?_eq_none rfl (List.forall_mem_singleton.mpr ih.2)⟩
  | hoistCond _ _ ih => exact ⟨ih.1.declare, Dialect.Expr.formsIn_var _⟩
  | hoistBind _ _ ih =>
      have hblock : Stmt.FormsIn F [.block _] := .cons ih.1 Stmt.formsIn_nil
      exact ⟨hblock.declare, Dialect.Expr.formsIn_var _⟩
  | nil => exact ⟨Stmt.formsIn_nil, by simp [Task.Gives]⟩
  | cons _ _ ih ihs => exact ⟨ih.1.append ihs.1, List.forall_mem_cons.mpr ⟨ih.2, ihs.2⟩⟩
  | write _ _ ih => exact ⟨ih.1.append (formsIn_write ih.2), trivial⟩
  | choose _ _ _ ihc iha ihr =>
      refine ⟨ihc.1.append (.cons ?_ Stmt.formsIn_nil), trivial⟩
      rw [Stmt.exprs, List.forall_mem_cons, List.forall_mem_append]
      exact ⟨ihc.2, iha.1, ihr.1⟩
  | bind _ _ ihv ihb => exact ⟨ihv.1.append ihb.1, trivial⟩
  | assignLocal _ _ _ ih => exact ⟨ih.1.declare, trivial⟩
  | initLocal _ _ _ ih =>
      exact ⟨ih.1.append (.cons (List.forall_mem_singleton.mpr ih.2) Stmt.formsIn_nil), trivial⟩

end Expressions

section Declarations

variable {g : Setting} {s s' : Progress} {d : DeclId}

structure FormsProgress (F : Form → Prop) (s : Progress) : Prop where
  decls : ∀ decl ∈ s.decls, ∀ e ∈ decl.kind.exprs, e.FormsIn F
  natives : ∀ i form, s.terms.lookup i = some (.native form) → F form

theorem FormsProgress.declare (P : FormsProgress F s)
    (hdecls : ∃ decl, s'.decls = s.decls ++ [decl] ∧ ∀ e ∈ decl.kind.exprs, e.FormsIn F)
    (hterms : ∀ i form, s'.terms.lookup i = some (.native form) →
      s.terms.lookup i = some (.native form)) : FormsProgress F s' := by
  obtain ⟨decl, hd, hforms⟩ := hdecls
  refine ⟨?_, fun i form h => P.natives i form (hterms i form h)⟩
  rw [hd, List.forall_mem_append, List.forall_mem_singleton]
  exact ⟨P.decls, hforms⟩

def EmulatesWithin (g : Setting) (F : Form → Prop) (d : DeclId) : Prop :=
  ∀ i t symbol signature e, d = .term i → g.program.terms[i]? = some t →
    t.kind = .external symbol signature →
    g.table.resolve symbol signature.kind g.version g.shader.stage = .ok (.emulated e) →
    ∀ x ∈ (e.build signature).kind.exprs, x.FormsIn F

theorem Declares.formsIn (h : Declares g s d s')
    (P : FormsProgress (Available g.table g.shader.stage g.version) s)
    (he : EmulatesWithin g (Available g.table g.shader.stage g.version) d) :
    FormsProgress (Available g.table g.shader.stage g.version) s' := by
  cases h with
  | record => exact P.declare ⟨_, rfl, nofun⟩ fun _ _ h => h
  | routine _ hr _ _ hbody =>
      refine P.declare ⟨_, rfl, (Lowers.formsIn P.natives hbody).1⟩ fun _ _ => ?_
      exact lookup_of_native (Routine.form_ne_native hr _)
  | native _ _ hresolve =>
      refine ⟨P.decls, fun j form hj => ?_⟩
      rcases lookup_cons_eq_some hj with ⟨_, hform⟩ | hj
      · cases hform
        exact Table.nativeAvailability_of_resolve hresolve
      · exact P.natives j form hj
  | @emulation i t symbol signature e hterm hk hresolve =>
      exact P.declare ⟨_, declareEmulation_decls _ _ _ _ _,
        he i t symbol signature e rfl hterm hk hresolve⟩ fun _ _ => lookup_of_emulation

theorem formsIn_declareAll {supply : Supply} {closure : Closure}
    (h : g.declareAll supply closure = .ok s)
    (he : ∀ d ∈ closure.order, EmulatesWithin g (Available g.table g.shader.stage g.version) d) :
    FormsProgress (Available g.table g.shader.stage g.version) s := by
  refine declareAll_induct (motive := fun _ s =>
    FormsProgress (Available g.table g.shader.stage g.version) s) h ⟨nofun, nofun⟩ ?_
  intro pre d post s s' ho P hs
  exact hs.formsIn P (he d (by simp [ho]))

end Declarations

section Body

variable {g : Setting} {c : Context} {σ σ' : Scope} {ss : List Stmt}
  (hn : ∀ i form, c.terms.lookup i = some (.native form) → F form)
include hn

theorem LowersSteps.formsIn {steps : List Step} {xs : List Dialect.Expr}
    (h : LowersSteps g c steps σ xs ss σ') :
    Stmt.FormsIn F ss ∧ ∀ x ∈ xs, x.FormsIn F := by
  induction h with
  | nil => exact ⟨Stmt.formsIn_nil, nofun⟩
  | bind hv _ ih => exact ⟨(Lowers.formsIn hn hv).1.append ih.1, ih.2⟩
  | discard _ hc _ ih =>
      obtain ⟨hcode, hx⟩ := Lowers.formsIn hn hc
      exact ⟨hcode.append ih.1, List.forall_mem_cons.mpr ⟨hx, ih.2⟩⟩

theorem LowersAssignments.formsIn {as : List Assignment} {ws : List OutputWrite}
    (h : LowersAssignments g c as σ ws ss σ') :
    Stmt.FormsIn F ss ∧ ∀ o ∈ ws, o.value.FormsIn F := by
  induction h with
  | nil => exact ⟨Stmt.formsIn_nil, nofun⟩
  | cons _ _ hv _ _ ih =>
      obtain ⟨hcode, hx⟩ := Lowers.formsIn hn hv
      exact ⟨hcode.append ih.1, List.forall_mem_cons.mpr ⟨hx, ih.2⟩⟩

omit hn in
theorem formsIn_lowerMain {s : Progress} {main : Dialect.Main} (h : g.lowerMain s = .ok main)
    (P : FormsProgress F s) : ∀ e ∈ main.exprs, e.FormsIn F := by
  obtain ⟨ss₁, σ, ss₂, σ', hsteps, hassign, hbody⟩ := lowerMain_parts h
  obtain ⟨hcode, hdiscards⟩ := LowersSteps.formsIn P.natives hsteps
  obtain ⟨hcode', hvalues⟩ := LowersAssignments.formsIn P.natives hassign
  rw [Dialect.Main.exprs, List.forall_mem_append, List.forall_mem_append, List.forall_mem_map, hbody]
  exact ⟨⟨hcode.append hcode', hdiscards⟩, hvalues⟩

end Body

/-- All types in the signature of an external that the standard table emulates are legal, and none
is a sampler. -/
def EmulatedPlainly (stage : Stage) (v : Version) : TermKind → Prop
  | .external symbol signature => ∀ e,
      Table.standard.resolve symbol signature.kind v stage = .ok (.emulated e) →
      ∀ leaf ∈ signature.leaves, leaf.isSampler = false ∧ leafRule leaf v = none
  | _ => True

theorem formsIn_build {stage : Stage} {v : Version} {signature : Signature} {e : Emulation}
    (he : e.isCustom = false)
    (h : ∀ leaf ∈ signature.leaves, leaf.isSampler = false ∧ leafRule leaf v = none) :
    ∀ x ∈ (e.build signature).kind.exprs, x.FormsIn (Available .standard stage v) := by
  have hlegal : LegalDecl .standard stage v (e.build signature).kind := by
    refine legalDecl_build (fun form => basis_available) he (fun leaf hleaf => (h leaf hleaf).2) ?_
    intro leaf hleaf
    have hmem : leaf ∈ signature.leaves := by
      cases e with
      | transpose =>
          cases hleaf
          exact result_mem signature
      | inverse =>
          cases hleaf
          exact paramLeaf_mem signature 0
      | _ => cases hleaf
    exact constructor_available (h leaf hmem).1 (h leaf hmem).2
  exact fun x hx => (hlegal.exprs x hx).formsIn

/-- Every native call, builtin variable and operator in what a shader is lowered to is one that the
version has in the stage. -/
theorem available_of_lower {p : Program} {s : Shader} {closure : Closure} {v : Version}
    {d : Dialect.Shader} (h : lower p s closure v .standard = .ok d)
    (he : closure.AllTerms p fun t => EmulatedPlainly s.stage v t.kind) :
    ∀ x ∈ d.nodes, ∀ form, x.form? = some form →
      (Table.standard.nativeAvailability form d.stage).contains d.version = true := by
  obtain ⟨i, supply, -, progress, hall, hmain, hpresents, -, rfl, hdecls⟩ := lower_eq_ok.mp h
  have hstage : d.stage = s.stage := hpresents.stage
  have P := formsIn_declareAll hall fun decl hmem i t symbol signature e hi ht hk hresolve => by
    have hplain : EmulatedPlainly s.stage d.version t.kind := he i t (hi ▸ hmem) ht
    rw [hk] at hplain
    exact formsIn_build (Table.suits_of_standard_resolve hresolve).1 (hplain e hresolve)
  have hbody := formsIn_lowerMain hmain P
  rw [hstage]
  intro x hx
  rw [Dialect.Shader.nodes, hdecls] at hx
  rcases List.mem_append.mp hx with hx | hx
  · obtain ⟨decl, hdecl, hx⟩ := List.mem_flatMap.mp hx
    obtain ⟨e, hmem, hx⟩ := List.mem_flatMap.mp hx
    exact P.decls decl hdecl e hmem x hx
  · obtain ⟨e, hmem, hx⟩ := List.mem_flatMap.mp hx
    exact hbody e hmem x hx

namespace Turned

def float : Ty := .leaf .float

def square : Leaf := .matrix .two .two

def program : Program where
  terms := [⟨"invert", .external "inverse" (.function [square] square), {}⟩,
    ⟨"less", .external "lt" (.function [.float, .float] .bool), {}⟩,
    ⟨"place", .external "frag_coord" (.value .vec4), {}⟩]

def shader : Shader where
  name := "turned"
  stage := .fragment
  inputs := [⟨"turn", .leaf square, {}⟩, ⟨"shade", float, {}⟩]
  outputs := [⟨⟨"color", .leaf .vec4, {}⟩, .attachment 0⟩]
  steps := [.bind ⟨0, "back", .leaf square⟩
      (.apply ⟨.leaf square, {}⟩ 0 [.input ⟨.leaf square, {}⟩ 0]),
    .discard (.apply ⟨.leaf .bool, {}⟩ 1 [.input ⟨float, {}⟩ 1, .input ⟨float, {}⟩ 1]) {}]
  assignments := [⟨0, .term ⟨.leaf .vec4, {}⟩ 2⟩]

def closure : Closure := .placed [.term 0, .term 1, .term 2]

end Turned

open Turned in
/-- Forms of an emulation, of a condition and of an output. -/
theorem available_of_lower_turned :
    (closure.AllTerms program fun t => EmulatedPlainly shader.stage (.full .v110) t.kind) ∧
    ∃ d, lower program shader closure (.full .v110) .standard = .ok d ∧
      [.call "mat2", .binary .less, .var "gl_FragCoord"] ⊆
        d.nodes.filterMap Dialect.Expr.form? ∧
      ∀ x ∈ d.nodes, ∀ form, x.form? = some form →
        (Table.standard.nativeAvailability form d.stage).contains d.version = true := by
  have hplain : closure.AllTerms program fun t =>
      EmulatedPlainly shader.stage (.full .v110) t.kind := by
    intro i t hi ht
    have hi : i = 0 ∨ i = 1 ∨ i = 2 := by simpa [Turned.closure] using hi
    rcases hi with rfl | rfl | rfl <;> cases ht <;> intro e _ <;> decide
  obtain ⟨d, hd, hforms⟩ : ∃ d, lower program shader closure (.full .v110) .standard = .ok d ∧
      [Form.call "mat2", .binary .less, .var "gl_FragCoord"].all
        (d.nodes.filterMap Dialect.Expr.form?).contains = true :=
    Except.exists_eq_ok_of_toOption_map (by decide +kernel)
  refine ⟨hplain, d, hd, fun form hform => ?_, available_of_lower hd hplain⟩
  exact List.contains_iff_mem.mp (List.all_eq_true.mp hforms form hform)

end Lowering

end ShaderDialects
