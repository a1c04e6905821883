import ShaderDialects.Builtin.Standard
import ShaderDialects.Dialect.Traverse
import ShaderDialects.Proofs.Lowering.Errors
import ShaderDialects.Proofs.Lowering.Shader
import ShaderDialects.Proofs.Lowering.Visibility

namespace ShaderDialects

namespace Lowering

open Dialect (Main OutputWrite Stmt)

/-- The shader, or a term of the closure, reads the local before anything binds it: a parameter of
the term, a let around the read, an earlier step of the shader, or a let that ends before the
read. -/
inductive ReadsUnbound (p : Program) (s : Shader) (closure : Closure) (id : Nat) : Prop where
  | shader (h : id ∈ s.unbound)
  | term {i : Nat} {t : Term} (hi : .term i ∈ closure.order) (ht : p.terms[i]? = some t)
      (h : id ∈ t.kind.unbound)

theorem ReadsUnbound.not_boundLocals {p : Program} {s : Shader} {closure : Closure} {id : Nat}
    (h : ReadsUnbound p s closure id) : ¬ BoundLocals p s closure := by
  rintro ⟨hs, ht⟩
  cases h with
  | shader h =>
      have hfree := Shader.free_of_unbound h
      rw [hs] at hfree
      exact absurd hfree List.not_mem_nil
  | @term i t hi htm h =>
      have hfree := TermKind.free_of_unbound h
      rw [ht i t hi htm] at hfree
      exact absurd hfree List.not_mem_nil

section Refused

/-! What can be lowered reads nothing before it is bound. -/

/-- Only these ids have names. -/
def Scope.Names (ids : List Nat) (σ : Scope) : Prop :=
  ∀ id name, σ.locals.lookup id = some name → id ∈ ids

def Task.unbound (ids : List Nat) : Task → List Nat
  | value e _ | into e _ | declare _ e => e.unbound ids
  | values es _ => Expr.unboundOf ids es

variable {g : Setting} {c : Context} {σ σ' : Scope} {ss : List Stmt} {ids : List Nat}

theorem Scope.Names.lowers {task : Task} (N : σ.Names ids) (h : Lowers c task σ ss σ') :
    σ'.Names (task.binders ++ ids) := by
  intro id name hl
  by_cases hid : id ∈ task.binders
  · exact List.mem_append_left _ hid
  · exact List.mem_append_right _ (N id name (h.lookup_locals hid ▸ hl))

theorem Lowers.unbound {task : Task} (h : Lowers c task σ ss σ') (N : σ.Names ids) :
    task.unbound ids = [] := by
  induction h generalizing ids with
  | literal | term | input | nil => rfl
  | @bound _ id name _ hl => exact if_pos (N id name hl)
  | path hp _ => exact Expr.unbound_of_parameterPath hp ids
  | apply _ _ ih | construct _ _ _ ih | field _ _ _ ih | swizzle _ ih => exact ih N
  | hoistCond _ _ ih | hoistBind _ _ ih => exact ih N
  | write _ _ ih => exact ih N
  | cons he _ ih ihs => exact List.append_eq_nil_iff.mpr ⟨ih N, ihs (N.lowers he)⟩
  | choose hc ha _ ih ih₁ ih₂ =>
      have N₁ := N.lowers hc
      rw [Task.unbound, Expr.unbound, List.append_eq_nil_iff, List.append_eq_nil_iff]
      exact ⟨⟨ih N, ih₁ N₁⟩, ih₂ (N₁.lowers ha)⟩
  | bind hv _ ih ih₁ => exact List.append_eq_nil_iff.mpr ⟨ih N, ih₁ (N.lowers hv)⟩
  | assignLocal _ _ _ ih | initLocal _ _ _ ih => exact ih N

theorem LowersSteps.names {steps : List Step} {xs : List Dialect.Expr}
    (h : LowersSteps g c steps σ xs ss σ') (N : σ.Names ids) :
    σ'.Names (steps.flatMap Step.binders ++ ids) := by
  induction h generalizing ids with
  | nil => exact N
  | bind hv _ ih | discard _ hv _ ih =>
      intro id name hl
      have hid := ih (N.lowers hv) id name hl
      grind [Step.binders, Task.binders]

theorem LowersSteps.unbound {steps : List Step} {xs : List Dialect.Expr}
    (h : LowersSteps g c steps σ xs ss σ') (N : σ.Names ids) : Step.unboundOf ids steps = [] := by
  induction h generalizing ids with
  | nil => rfl
  | bind hv _ ih | discard _ hv _ ih =>
      exact List.append_eq_nil_iff.mpr ⟨hv.unbound N, ih (N.lowers hv)⟩

theorem LowersAssignments.unbound {as : List Assignment} {ws : List OutputWrite}
    (h : LowersAssignments g c as σ ws ss σ') (N : σ.Names ids) :
    Expr.unboundOf ids (as.map Assignment.value) = [] := by
  induction h generalizing ids with
  | nil => rfl
  | cons _ _ hv _ _ ih => exact List.append_eq_nil_iff.mpr ⟨hv.unbound N, ih (N.lowers hv)⟩

theorem unbound_of_lowerMain {s : Progress} {main : Main} (h : g.lowerMain s = .ok main) :
    g.shader.unbound = [] := by
  obtain ⟨ss₁, σ, ss₂, σ', hs, ha, -⟩ := lowerMain_parts h
  have N : Scope.Names [] ⟨s.supply, []⟩ := nofun
  have N' := hs.names N
  rw [List.append_nil] at N'
  exact List.append_eq_nil_iff.mpr ⟨hs.unbound N, ha.unbound N'⟩

theorem names_routineScope (s : Progress) (t : Term) (r : Routine) :
    (s.routineScope t r).2.Names (r.params.map Binding.id) := by
  intro id name hl
  by_contra hid
  rw [Progress.routineScope, Scope.lookup_bindParams_of_not_mem hid] at hl
  cases hl

theorem Declares.unbound {s s' : Progress} {i : Nat} {t : Term} (h : Declares g s (.term i) s')
    (ht : g.program.terms[i]? = some t) : t.kind.unbound = [] := by
  cases h with
  | routine ht' hr _ _ hb =>
      obtain rfl := Option.some_inj.mp (ht.symm.trans ht')
      rw [Routine.unbound hr]
      exact hb.unbound (names_routineScope s _ _)
  | native ht' hk | emulation ht' hk =>
      obtain rfl := Option.some_inj.mp (ht.symm.trans ht')
      rw [hk]
      rfl

theorem not_readsUnbound {p : Program} {s : Shader} {closure : Closure} {v : Version}
    {table : Table} {d : Dialect.Shader} (h : lower p s closure v table = .ok d) {id : Nat} :
    ¬ ReadsUnbound p s closure id := by
  obtain ⟨_, _, -, progress, hp, hm, -⟩ := lower_eq_ok.mp h
  rintro (hs | ⟨hi, ht, hid⟩)
  · rw [unbound_of_lowerMain hm] at hs
    exact absurd hs List.not_mem_nil
  · obtain ⟨s, s', hd, -⟩ := exists_declares hp hi
    rw [hd.unbound ht] at hid
    exact absurd hid List.not_mem_nil

end Refused

section Blamed

/-! What is refused as unbound is read before it is bound. -/

def Error.Mistakes (unbound : Nat → Prop) : Error → Prop
  | malformed _ (.unboundLocal id) => ¬ unbound id
  | _ => False

variable {unbound : Nat → Prop} {c : Context}

theorem inner_mistakes (shader : String) : Inner (Error.Mistakes unbound) shader where
  builtin _ := not_false
  plain reason h := by
    cases reason with
    | unboundLocal id => cases h
    | _ => exact not_false
  fault _ := not_false
  undeclared _ := not_false

theorem ownAvoids_mistakes (e : Expr) : c.OwnAvoids (Error.Mistakes unbound) e := by
  have I : Inner (Error.Mistakes unbound) c.shader.name := inner_mistakes _
  exact Context.ownAvoids_of_inner (R := fun _ => True) I
    (fun i _ => Context.avoids_constructible (I.avoids_fault _) (I.avoids_fault _)
      fun _ => not_false)
    (fun _ _ _ _ _ _ => trivial) (fun _ => trivial) fun _ _ _ _ => trivial

theorem readsUnbound_of_lower {p : Program} {s : Shader} {closure : Closure} {v : Version}
    {table : Table} {name : String} {id : Nat}
    (h : lower p s closure v table = .error (.malformed name (.unboundLocal id))) :
    ReadsUnbound p s closure id := by
  by_contra hid
  have I : Inner (Error.Mistakes (ReadsUnbound p s closure)) s.name := inner_mistakes _
  refine avoids_lower_of_inner I (fun _ _ _ _ _ x _ => ownAvoids_mistakes x) (fun id hid => ?_)
    (fun i t hi ht id hid => ?_) v table (.malformed name (.unboundLocal id)) hid h
  · exact not_not_intro (.shader hid)
  · exact not_not_intro (.term hi ht hid)

end Blamed

/-- A shader is not lowered if it, or a term of its closure, reads a local before anything binds it,
and no other local is ever called unbound: none is where each is bound around all that reads it. -/
theorem lower_error_of_unbound (p : Program) (s : Shader) (closure : Closure) (v : Version)
    (table : Table) :
    (∀ id, ReadsUnbound p s closure id → ∃ e, lower p s closure v table = .error e) ∧
      (∀ name id, lower p s closure v table = .error (.malformed name (.unboundLocal id)) →
        ReadsUnbound p s closure id) ∧
      (BoundLocals p s closure → ∀ name id,
        lower p s closure v table ≠ .error (.malformed name (.unboundLocal id))) := by
  refine ⟨fun id hid => ?_, fun name id => readsUnbound_of_lower, fun hb name id h => ?_⟩
  · cases hl : lower p s closure v table with
    | error e => exact ⟨e, rfl⟩
    | ok d => exact absurd hid (not_readsUnbound hl)
  · exact (readsUnbound_of_lower h).not_boundLocals hb

namespace Leaks

/-! A sum of which one operand is a let, and the other reads its local. -/

abbrev float : Ty := .leaf .float

def program : Program where
  records := []
  terms := [⟨"sum", .external "add" (.function [.float, .float] .float), {}⟩]

def half : Expr := .literal ⟨float, {}⟩ (.float ⟨0x3f000000⟩)

def shade : Expr := .bound ⟨float, {}⟩ 0

def bind : Expr := .bind ⟨float, {}⟩ ⟨0, "shade", float⟩ half shade

def shader (operands : List Expr) : Shader where
  name := "leaked"
  stage := .fragment
  outputs := [⟨⟨"depth", float, {}⟩, .depth⟩]
  assignments := [⟨0, .apply ⟨float, {}⟩ 0 operands⟩]

def closure : Closure := .placed [.term 0]

end Leaks

open Leaks in
theorem lower_error_of_unbound_leaks :
    Closure.ofShader program (shader [shade, bind]) = .ok closure ∧
      (shader [shade, bind]).unbound = [0] ∧
      lower program (shader [shade, bind]) closure (.full .v330) .standard =
        .error (.malformed "leaked" (.unboundLocal 0)) ∧
      (∃ e, lower program (shader [shade, bind]) closure (.full .v330) .standard = .error e) ∧
      ReadsUnbound program (shader [shade, bind]) closure 0 := by
  have hu : (shader [shade, bind]).unbound = [0] := rfl
  have he : lower program (shader [shade, bind]) closure (.full .v330) .standard =
      .error (.malformed "leaked" (.unboundLocal 0)) := rfl
  have h := lower_error_of_unbound program (shader [shade, bind]) closure (.full .v330) .standard
  exact ⟨rfl, hu, he, h.1 0 (.shader (by simp [hu])), h.2.1 "leaked" 0 he⟩

open Leaks in
/-- A local that is read after its let has ended is taken for the one that was declared in the block
of the let, and is not visible where it is read. -/
theorem lower_reads_finished_let :
    Closure.ofShader program (shader [bind, shade]) = .ok closure ∧
      (shader [bind, shade]).free = [0] ∧
      ∃ d, lower program (shader [bind, shade]) closure (.full .v330) .standard = .ok d ∧
        Stmt.after [] d.main.statements = ["_t0"] ∧
        d.main.outputs.flatMap (fun o => o.value.nodes.filterMap Dialect.Expr.mention?)
          = ["_t0", "shade"] := by
  have hnames : (lower program (shader [bind, shade]) closure (.full .v330) .standard).toOption.map
      (fun d => (Stmt.after [] d.main.statements,
        d.main.outputs.flatMap fun o => o.value.nodes.filterMap Dialect.Expr.mention?))
      = some (["_t0"], ["_t0", "shade"]) := by
    decide +kernel
  obtain ⟨d, hd, h⟩ := Except.exists_eq_ok_of_toOption_map hnames
  exact ⟨rfl, rfl, d, hd, (Prod.mk.inj h).1, (Prod.mk.inj h).2⟩

end Lowering

end ShaderDialects
