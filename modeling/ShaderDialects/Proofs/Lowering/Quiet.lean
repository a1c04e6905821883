import ShaderDialects.Proofs.Builtin.Availability
import ShaderDialects.Proofs.Dialect.Quiet
import ShaderDialects.Proofs.Legality.Expression
import ShaderDialects.Proofs.Lowering.Identifiers

namespace ShaderDialects

open Text (Quiet)

namespace Emulation

def Body.Quiet : Body → Prop
  | function params _ body => (∀ q ∈ params, Text.Quiet q.1) ∧ Dialect.Stmt.Quiet body
  | constant _ value => value.Quiet

open Dialect.Expr (quiet_binary quiet_index quiet_literal quiet_native quiet_unary quiet_var)

theorem quiet_element (column row : Nat) : (element column row).Quiet :=
  quiet_index (quiet_index (quiet_var (by decide)) column) row

theorem quiet_alternate {sum : Dialect.Expr} {ts : List Dialect.Expr} (hs : sum.Quiet)
    (ht : ∀ t ∈ ts, t.Quiet) (plus : Bool) : (alternate sum plus ts).Quiet := by
  induction ts generalizing sum plus with
  | nil => exact hs
  | cons t ts ih =>
      obtain ⟨ht, hts⟩ := List.forall_mem_cons.mp ht
      exact ih (quiet_binary _ hs ht) hts _

theorem quiet_minor (columns rows : List Nat) : (minor columns rows).Quiet := by
  induction columns generalizing rows with
  | nil => exact quiet_literal _
  | cons column columns ih =>
      cases rows with
      | nil => exact quiet_literal _
      | cons row rows =>
          cases columns with
          | nil => exact quiet_element column row
          | cons next columns =>
              have hterm (r : Nat) (rest : List Nat) : (Dialect.Expr.binary .multiply
                  (element column r) (minor (next :: columns) rest)).Quiet :=
                quiet_binary _ (quiet_element column r) (ih rest)
              rw [minor, List.map_cons]
              · refine quiet_alternate (hterm _ _) (fun t ht => ?_) _
                obtain ⟨r, _, rfl⟩ := List.mem_map.mp ht
                exact hterm _ _
              · exact nofun
              · exact nofun

theorem quiet_inverseElements (n : Nat) : ∀ x ∈ inverseElements n, x.Quiet := by
  intro x hx
  obtain ⟨column, _, hx⟩ := List.mem_flatMap.mp hx
  obtain ⟨row, _, rfl⟩ := List.mem_map.mp hx
  refine quiet_binary _ ?_ (quiet_var (by decide))
  split
  · exact quiet_unary _ (quiet_minor _ _)
  · exact quiet_minor _ _

theorem quiet_transposeElements (columns rows : Nat) :
    ∀ x ∈ transposeElements columns rows, x.Quiet := by
  intro x hx
  obtain ⟨j, _, hx⟩ := List.mem_flatMap.mp hx
  obtain ⟨i, _, rfl⟩ := List.mem_map.mp hx
  exact quiet_element i j

theorem quiet_isNaNValue (leaf : Leaf) : (isNaNValue leaf).Quiet := by
  have hx : (Dialect.Expr.var "x").Quiet := quiet_var (by decide)
  cases leaf with
  | vector =>
      refine quiet_native (by decide) (List.forall_mem_cons.mpr ⟨hx, ?_⟩)
      exact List.forall_mem_singleton.mpr hx
  | _ => exact quiet_binary _ hx hx

theorem quiet_build {e : Emulation} (he : e.isCustom = false) (signature : Signature) :
    (e.build signature).Quiet := by
  have hparam {n : String} (hn : Text.Quiet n) (leaf : Leaf) :
      ∀ q ∈ [(n, leaf)], Text.Quiet q.1 :=
    List.forall_mem_singleton.mpr hn
  have hresult {x : Dialect.Expr} (hx : x.Quiet) := Dialect.Stmt.quiet_return hx
  cases e with
  | isNaN => exact ⟨hparam (by decide) _, hresult (quiet_isNaNValue _)⟩
  | transpose =>
      exact ⟨hparam (by decide) _, hresult (quiet_native (Leaf.quiet_name _)
        (quiet_transposeElements _ _))⟩
  | determinant => exact ⟨hparam (by decide) _, hresult (quiet_minor _ _)⟩
  | inverse =>
      refine ⟨hparam (by decide) _, Dialect.Stmt.quiet_init (by decide) (Dialect.Ty.quiet_leaf _)
        (quiet_minor _ _) (hresult ?_)⟩
      exact quiet_native (Leaf.quiet_name _) (quiet_inverseElements _)
  | remainder => exact ⟨by simp; decide, hresult (by decide +kernel)⟩
  | round => exact ⟨hparam (by decide) _, hresult (by decide +kernel)⟩
  | truncate => exact ⟨hparam (by decide) _, hresult (by decide +kernel)⟩
  | sinh | cosh => exact ⟨hparam (by decide) _, hresult (by decide +kernel)⟩
  | tanh =>
      exact ⟨hparam (by decide) _, Dialect.Stmt.quiet_init (by decide) (Dialect.Ty.quiet_leaf _)
        (by decide +kernel) (hresult (by decide +kernel))⟩
  | pi => exact quiet_literal _
  | custom => cases he

end Emulation

def Form.Quiet (form : Form) : Prop := ∀ n ∈ form.name?, Text.Quiet n

structure Table.Quiet (t : Table) : Prop where
  symbols : ∀ e ∈ t.definitions, Text.Quiet e.symbol
  names : ∀ n ∈ t.nativeNames, Text.Quiet n
  emulations : ∀ e ∈ t.definitions, ∀ r ∈ e.rules, ∀ em, r.decision = .emulated em →
    ∀ signature, (em.build signature).Quiet

namespace Table

theorem quiet_standard : standard.Quiet where
  symbols := by decide +kernel
  names := by decide +kernel
  emulations := by
    intro e he r hr em hd signature
    have hsuits := standard_definitions_suit e he r hr
    rw [hd] at hsuits
    exact Emulation.quiet_build hsuits.1 signature

variable {t : Table} {symbol : String} {kind : ExternalKind} {v : Version} {stage : Stage}

theorem Quiet.of_resolve (Q : t.Quiet) {d : Decision} (h : t.resolve symbol kind v stage = .ok d) :
    Text.Quiet symbol := by
  obtain ⟨e, he, rfl, -⟩ := rule_of_resolve h
  exact Q.symbols e he

theorem Quiet.form (Q : t.Quiet) {form : Form}
    (h : t.resolve symbol kind v stage = .ok (.native form)) : form.Quiet := by
  obtain ⟨e, he, -, -, r, hr, -, hd⟩ := rule_of_resolve h
  intro n hn
  refine Q.names n (mem_nativeNames.mpr ⟨e, he, r, hr, ?_⟩)
  rcases NativeIndex.name?_eq_some.mp hn with rfl | rfl
  · exact .inl hd
  · exact .inr hd

theorem Quiet.emulation (Q : t.Quiet) {em : Emulation}
    (h : t.resolve symbol kind v stage = .ok (.emulated em)) (signature : Signature) :
    (em.build signature).Quiet := by
  obtain ⟨e, he, -, -, r, hr, -, hd⟩ := rule_of_resolve h
  exact Q.emulations e he r hr em hd signature

end Table

/-- The name of the source by which comments tell what a declaration is; an external is told by its
symbol. -/
def Program.toldName? (p : Program) : DeclId → Option String
  | .record i => p.records[i]?.map Record.name
  | .term i => do
      let t ← p.terms[i]?
      (Lowering.Routine.ofKind? t.kind).map fun _ => t.name

def toldNames (p : Program) (s : Shader) (closure : Closure) : List String :=
  s.name :: closure.order.filterMap p.toldName?

namespace Lowering

open Dialect (Decl Main OutputWrite Stmt Variable)
open Identifier (Supply)

def TermForm.Quiet : TermForm → Prop
  | function name | value name | emulatedFunction name | emulatedConstant name => Text.Quiet name
  | native form => form.Quiet

structure Context.Quiet (c : Context) : Prop where
  inputs : ∀ (i : Nat) (item : Item), c.interface.inputs[i]? = some item → Text.Quiet item.ident
  uniforms : ∀ q path u, c.uniform? q path = some u → Text.Quiet u.ident
  structs : ∀ i names, c.structs.lookup i = some names → Text.Quiet names.name
  fields : ∀ i names, c.structs.lookup i = some names → ∀ n ∈ names.fields, Text.Quiet n
  terms : ∀ i form, c.terms.lookup i = some form → form.Quiet

namespace Context.Quiet

variable {c : Context} (C : c.Quiet)
include C

theorem struct {i : Nat} {names : StructNames} (hn : Text.Quiet names.name)
    (hf : ∀ n ∈ names.fields, Text.Quiet n) :
    Context.Quiet { c with structs := (i, names) :: c.structs } where
  inputs := C.inputs
  uniforms := C.uniforms
  structs j names' h := by
    rcases lookup_cons_eq_some h with ⟨-, rfl⟩ | h
    · exact hn
    · exact C.structs j names' h
  fields j names' h := by
    rcases lookup_cons_eq_some h with ⟨-, rfl⟩ | h
    · exact hf
    · exact C.fields j names' h
  terms := C.terms

theorem term {i : Nat} {form : TermForm} (hf : form.Quiet) :
    Context.Quiet { c with terms := (i, form) :: c.terms } where
  inputs := C.inputs
  uniforms := C.uniforms
  structs := C.structs
  fields := C.fields
  terms j form' h := by
    rcases lookup_cons_eq_some h with ⟨-, rfl⟩ | h
    · exact hf
    · exact C.terms j form' h

theorem ty {t : Ty} {ty : Dialect.Ty} (h : c.ty t = .ok ty) : ty.Quiet := by
  cases t with
  | leaf t =>
      obtain rfl := Context.ty_leaf_eq_ok.mp h
      exact Dialect.Ty.quiet_leaf t
  | record i =>
      obtain ⟨names, hn, rfl⟩ := Context.ty_record_eq_ok.mp h
      exact C.structs i names hn

theorem zipWith {ι : Type} {ty : ι → Ty} {fs : List ι} {tys : List Dialect.Ty}
    {names : List String} (hn : ∀ n ∈ names, Text.Quiet n)
    (h : List.Forall₂ (fun f t => c.ty (ty f) = .ok t) fs tys) :
    ∀ x ∈ List.zipWith Variable.mk names tys, x.ty.Quiet ∧ Text.Quiet x.name := by
  induction h generalizing names with
  | nil => simp
  | cons ht _ ih =>
      cases names with
      | nil => exact nofun
      | cons n names =>
          obtain ⟨hn, hns⟩ := List.forall_mem_cons.mp hn
          exact List.forall_mem_cons.mpr ⟨⟨C.ty ht, hn⟩, ih hns⟩

theorem readTerm {i : Nat} {x : Dialect.Expr} (h : c.readTerm i = .ok x) : x.Quiet := by
  obtain ⟨form, hform, hx⟩ := Context.readTerm_eq_ok.mp h
  have hf := C.terms i form hform
  cases form with
  | value name =>
      obtain rfl := Option.some_inj.mp hx
      exact Dialect.Expr.quiet_user hf nofun
  | emulatedConstant name =>
      obtain rfl := Option.some_inj.mp hx
      exact hf
  | native form =>
      cases form with
      | var name =>
          obtain rfl := Option.some_inj.mp hx
          exact hf name rfl
      | _ => cases hx
  | _ => cases hx

theorem applyTerm {i : Nat} {args : List Dialect.Expr} {x : Dialect.Expr}
    (h : c.applyTerm i args = .ok x) (ha : ∀ a ∈ args, a.Quiet) : x.Quiet := by
  obtain ⟨form, hform, hx⟩ := Context.applyTerm_eq_ok.mp h
  have hf := C.terms i form hform
  cases form with
  | function name | emulatedFunction name =>
      obtain rfl := Option.some_inj.mp hx
      exact Dialect.Expr.quiet_user hf ha
  | native form =>
      cases form with
      | call name =>
          obtain rfl := Option.some_inj.mp hx
          exact Dialect.Expr.quiet_native (hf name rfl) ha
      | binary op =>
          obtain ⟨l, r, rfl, rfl⟩ := Form.build?_binary.mp hx
          exact Dialect.Expr.quiet_binary op (ha l (by simp)) (ha r (by simp))
      | unary op =>
          obtain ⟨operand, rfl, rfl⟩ := Form.build?_unary.mp hx
          exact Dialect.Expr.quiet_unary op (ha operand (by simp))
      | var name => cases hx
  | _ => cases hx

theorem rebuildWithin {depth q : Nat} {path : List Nat} {t : Ty} {x : Dialect.Expr}
    (h : c.rebuildWithin depth q path t = .ok x) : x.Quiet := by
  refine Context.rebuildWithin_induct h ?_ ?_
  · exact fun path u hu => C.uniforms q path u hu
  · exact fun i names args hn hargs => Dialect.Expr.quiet_user (C.structs i names hn) hargs

end Context.Quiet

def Scope.Quiet (σ : Scope) : Prop :=
  ∀ id name, σ.locals.lookup id = some name → Text.Quiet name

theorem Scope.Quiet.bind {σ : Scope} (K : σ.Quiet) (id : Nat) {name : String}
    (hn : Text.Quiet name) : (σ.bind id name).Quiet := by
  intro id' name' h
  rcases lookup_cons_eq_some h with ⟨-, rfl⟩ | h
  · exact hn
  · exact K id' name' h

def Place.Quiet : Place → Prop
  | result => True
  | assign name => Text.Quiet name

theorem Place.Quiet.write {place : Place} (h : place.Quiet) {x : Dialect.Expr} (hx : x.Quiet) :
    Stmt.Quiet [place.write x] := by
  cases place with
  | result => exact Stmt.quiet_return hx
  | assign name => exact Stmt.quiet_assign h hx

def Task.Quiet : Task → Prop
  | into _ place => place.Quiet
  | _ => True

/-- Where all names are quiet, a task emits quiet statements and gives quiet expressions. -/
theorem Lowers.quiet {c : Context} {task : Task} {σ σ' : Scope} {ss : List Stmt}
    (h : Lowers c task σ ss σ') (C : c.Quiet) (P : task.Quiet) (K : σ.Quiet) :
    Stmt.Quiet ss ∧ task.Gives Dialect.Expr.Quiet ∧ σ'.Quiet := by
  induction h with
  | @literal n v => exact ⟨Stmt.quiet_nil, Dialect.Expr.quiet_literal v, K⟩
  | @bound n id name σ hl => exact ⟨Stmt.quiet_nil, K id name hl, K⟩
  | term ht => exact ⟨Stmt.quiet_nil, C.readTerm ht, K⟩
  | input hi => exact ⟨Stmt.quiet_nil, C.inputs _ _ hi, K⟩
  | path _ hx => exact ⟨Stmt.quiet_nil, C.rebuildWithin hx, K⟩
  | apply _ hx ih =>
      obtain ⟨hs, hxs, K'⟩ := ih trivial K
      exact ⟨hs, C.applyTerm hx hxs, K'⟩
  | @construct n r fields xs names _ _ _ _ _ hn ih =>
      obtain ⟨hs, hxs, K'⟩ := ih trivial K
      have hname := C.structs r names (Context.structNames_eq_ok.mp hn)
      exact ⟨hs, Dialect.Expr.quiet_user hname hxs, K'⟩
  | field _ hn _ ih =>
      obtain ⟨hs, hx, K'⟩ := ih trivial K
      obtain ⟨r, names, -, hnames, hname⟩ := Context.fieldName_eq_ok.mp hn
      have hquiet := C.fields r names hnames _ (List.mem_of_getElem? hname)
      exact ⟨hs, Dialect.Expr.quiet_field hx hquiet, K'⟩
  | @swizzle n base s x _ _ _ _ ih =>
      obtain ⟨hs, hx, K'⟩ := ih trivial K
      exact ⟨hs, Dialect.Expr.quiet_swizzle hx s, K'⟩
  | @hoistCond _ _ _ _ _ σ _ _ ht _ ih =>
      have hn := σ.supply.quiet_temporary
      obtain ⟨hs, -, K'⟩ := ih hn K
      exact ⟨.declare hn (C.ty ht) hs, hn, K'⟩
  | @hoistBind _ _ _ _ _ σ _ _ ht _ ih =>
      have hn := σ.supply.quiet_temporary
      obtain ⟨hs, -, K'⟩ := ih hn K
      exact ⟨.declare hn (C.ty ht) (Stmt.quiet_block hs), hn, K'⟩
  | nil => exact ⟨Stmt.quiet_nil, List.forall_mem_nil _, K⟩
  | cons _ _ ih ihs =>
      obtain ⟨hs, hx, K₁⟩ := ih trivial K
      obtain ⟨hs', hxs, K₂⟩ := ihs trivial K₁
      exact ⟨hs.append hs', List.forall_mem_cons.mpr ⟨hx, hxs⟩, K₂⟩
  | write _ _ ih =>
      obtain ⟨hs, hx, K'⟩ := ih trivial K
      exact ⟨hs.append (Place.Quiet.write P hx), trivial, K'⟩
  | choose _ _ _ ih ih₁ ih₂ =>
      obtain ⟨hs, hx, K₁⟩ := ih trivial K
      obtain ⟨hs₁, -, K₂⟩ := ih₁ P K₁
      obtain ⟨hs₂, -, K₃⟩ := ih₂ P K₂
      exact ⟨hs.append (Stmt.quiet_cond hx hs₁ hs₂), trivial, K₃⟩
  | bind _ _ ih ih₁ =>
      obtain ⟨hs, -, K₁⟩ := ih trivial K
      obtain ⟨hs', -, K₂⟩ := ih₁ P K₁
      exact ⟨hs.append hs', trivial, K₂⟩
  | @assignLocal b _ _ σ _ _ _ ht _ ih =>
      have hn := σ.supply.quiet_fresh b.name
      obtain ⟨hs, -, K'⟩ := ih hn K
      exact ⟨.declare hn (C.ty ht) hs, trivial, K'.bind b.id hn⟩
  | @initLocal b _ _ _ σ _ _ _ ht _ ih =>
      have hn := σ.supply.quiet_fresh b.name
      obtain ⟨hs, hx, K'⟩ := ih trivial K
      exact ⟨hs.append (Stmt.quiet_init hn (C.ty ht) hx Stmt.quiet_nil), trivial, K'.bind b.id hn⟩

section Body

variable {g : Setting} {c : Context} {σ σ' : Scope} {ss : List Stmt}

theorem LowersSteps.quiet {steps : List Step} {xs : List Dialect.Expr}
    (h : LowersSteps g c steps σ xs ss σ') (C : c.Quiet) (K : σ.Quiet) :
    Stmt.Quiet ss ∧ (∀ x ∈ xs, x.Quiet) ∧ σ'.Quiet := by
  induction h with
  | nil => exact ⟨Stmt.quiet_nil, nofun, K⟩
  | bind hv _ ih =>
      obtain ⟨hs, -, K₁⟩ := hv.quiet C trivial K
      obtain ⟨hs', hxs, K₂⟩ := ih K₁
      exact ⟨hs.append hs', hxs, K₂⟩
  | discard _ hc _ ih =>
      obtain ⟨hs, hx, K₁⟩ := hc.quiet C trivial K
      obtain ⟨hs', hxs, K₂⟩ := ih K₁
      exact ⟨hs.append hs', List.forall_mem_cons.mpr ⟨hx, hxs⟩, K₂⟩

theorem quiet_sink (hi : ∀ n ∈ g.interface.idents, Text.Quiet n) {output : Output}
    {ident : String} (ho : (output, ident) ∈ g.outputs) {sink : Dialect.Sink}
    (h : g.sink output ident = .ok sink) : Text.Quiet sink.text := by
  cases sink with
  | var name =>
      obtain rfl := name_of_sink h
      refine hi name (List.mem_append_left _ (List.mem_append_right _ ?_))
      exact (List.of_mem_zip ho).2
  | fragData n =>
      exact (Text.Quiet.append (by decide) (Text.quiet_repr n)).append (by decide)
  | position | fragColor | fragDepth => decide

theorem LowersAssignments.quiet {as : List Assignment} {ws : List OutputWrite}
    (h : LowersAssignments g c as σ ws ss σ') (C : c.Quiet) (K : σ.Quiet)
    (hi : ∀ n ∈ g.interface.idents, Text.Quiet n) :
    Stmt.Quiet ss ∧ ∀ o ∈ ws, o.value.Quiet ∧ Text.Quiet o.sink.text := by
  induction h with
  | nil => exact ⟨Stmt.quiet_nil, nofun⟩
  | cons ho _ hv hk _ ih =>
      obtain ⟨hs, hx, K₁⟩ := hv.quiet C trivial K
      obtain ⟨hs', hws⟩ := ih K₁
      have hsink := quiet_sink hi (List.mem_of_getElem? ho) hk
      exact ⟨hs.append hs', List.forall_mem_cons.mpr ⟨⟨hx, hsink⟩, hws⟩⟩

theorem quiet_lowerMain {s : Progress} {main : Main} (h : g.lowerMain s = .ok main)
    (C : (g.context s).Quiet) (hi : ∀ n ∈ g.interface.idents, Text.Quiet n) : main.Quiet := by
  obtain ⟨ss₁, σ, ss₂, σ', hs, ha, hm⟩ := lowerMain_parts h
  obtain ⟨hs₁, hxs, K⟩ := hs.quiet C nofun
  obtain ⟨hs₂, hws⟩ := ha.quiet C K hi
  refine ⟨?_, hxs, fun o ho => (hws o ho).1, fun o ho => (hws o ho).2⟩
  rw [hm]
  exact hs₁.append hs₂

end Body

structure Progress.Quiet (g : Setting) (s : Progress) : Prop where
  context : (g.context s).Quiet
  decls : ∀ d ∈ s.decls, d.Quiet

section Declarations

variable {g : Setting} {s s' : Progress}

theorem declareEmulation_quiet (Q : s.Quiet g) (i : Nat) (t : Term) (symbol : String)
    {body : Emulation.Body} (hb : body.Quiet) :
    (Setting.declareEmulation s i t symbol body).Quiet g := by
  have hn := s.supply.quiet_fresh (t.name ++ "_emulated")
  cases body with
  | function params result body =>
      refine ⟨Q.context.term hn, List.forall_mem_append.mpr ⟨Q.decls, ?_⟩⟩
      refine List.forall_mem_singleton.mpr (Decl.quiet_function hn rfl ?_ ?_ hb.2)
      · exact List.forall_mem_map.mpr fun q hq => ⟨Dialect.Ty.quiet_leaf q.2, hb.1 q hq⟩
      · exact Dialect.Ty.quiet_leaf result
  | constant leaf value =>
      refine ⟨Q.context.term hn, List.forall_mem_append.mpr ⟨Q.decls, ?_⟩⟩
      exact List.forall_mem_singleton.mpr
        (Decl.quiet_constant hn rfl (Dialect.Ty.quiet_leaf leaf) hb)

theorem quiet_fieldNames (p : Program) (i : Nat) : ∀ n ∈ p.fieldNames i, Text.Quiet n := by
  rw [Program.fieldNames]
  split
  · exact (Supply.gives_freshAll _ _).quiet
  · exact List.forall_mem_nil _

theorem Scope.Quiet.bindParams {σ : Scope} (K : σ.Quiet) (params : List Binding) :
    (σ.bindParams params).2.Quiet := by
  induction params generalizing σ with
  | nil => exact K
  | cons b params ih =>
      refine ih (Scope.Quiet.bind ?_ b.id (σ.supply.quiet_fresh b.name))
      exact K

theorem Routine.quiet_form {k : TermKind} {r : Routine} (hr : ofKind? k = some r) {name : String}
    (h : Text.Quiet name) : (r.form name).Quiet := by
  cases k with
  | function params result body | value ty body =>
      cases hr
      exact h
  | external symbol signature => cases hr

theorem Declares.quiet {d : DeclId} (h : Declares g s d s') (T : g.table.Quiet) (Q : s.Quiet g) :
    s'.Quiet g := by
  cases h with
  | @record i r tys hr ht =>
      have hn := s.supply.quiet_fresh r.name
      have hf := quiet_fieldNames g.program i
      refine ⟨Q.context.struct hn hf, List.forall_mem_append.mpr ⟨Q.decls, ?_⟩⟩
      exact List.forall_mem_singleton.mpr (Decl.quiet_struct hn rfl (Q.context.zipWith hf ht))
  | @routine i t r tys rt ss σ ht hr hp hres hb =>
      have hn := s.supply.quiet_fresh t.name
      have hnames := (gives_routineScope s t r).quiet
      have K : Scope.Quiet ⟨(s.supply.fresh t.name).2, []⟩ := nofun
      obtain ⟨hbody, -⟩ := hb.quiet Q.context trivial (K.bindParams r.params)
      refine ⟨Q.context.term (Routine.quiet_form hr hn), List.forall_mem_append.mpr ⟨Q.decls, ?_⟩⟩
      exact List.forall_mem_singleton.mpr (Decl.quiet_function hn rfl
        (Q.context.zipWith hnames hp) (Q.context.ty hres) hbody)
  | native _ _ hd => exact ⟨Q.context.term (T.form hd), Q.decls⟩
  | @emulation i t symbol signature e _ _ hd =>
      exact declareEmulation_quiet Q i t symbol (T.emulation hd signature)

theorem quiet_start (hi : ∀ n ∈ g.interface.idents, Text.Quiet n) (supply : Supply) :
    Progress.Quiet g ⟨supply, [], [], []⟩ where
  context := {
    inputs := fun i item h => by
      have hmem := List.mem_map_of_mem (f := Item.ident) (List.mem_of_getElem? h)
      exact hi _ (List.mem_append_left _ (List.mem_append_left _ hmem))
    uniforms := fun q path u h => by
      obtain ⟨us, hus, hu⟩ := Option.bind_eq_some_iff.mp h
      have hmem : u ∈ g.interface.uniforms :=
        List.mem_flatten.mpr ⟨us, List.mem_of_getElem? hus, List.mem_of_find?_eq_some hu⟩
      exact hi _ (List.mem_append_right _ (List.mem_map_of_mem hmem))
    structs := nofun
    fields := nofun
    terms := nofun }
  decls := nofun

theorem quiet_of_declareAll {supply : Supply} {closure : Closure}
    (h : g.declareAll supply closure = .ok s) (T : g.table.Quiet)
    (hi : ∀ n ∈ g.interface.idents, Text.Quiet n) : s.Quiet g :=
  declareAll_induct (motive := fun _ s => s.Quiet g) h (quiet_start hi supply)
    fun _ _ _ _ _ _ Q hd => hd.quiet T Q

theorem Declares.oneLine {d : DeclId} (h : Declares g s d s') (T : g.table.Quiet)
    (hn : ∀ n ∈ g.program.toldName? d, Text.OneLine n)
    (ho : ∀ decl ∈ s.decls, Text.OneLine decl.origin.text) :
    ∀ decl ∈ s'.decls, Text.OneLine decl.origin.text := by
  cases h with
  | @record i r tys hr ht =>
      refine List.forall_mem_append.mpr ⟨ho, List.forall_mem_singleton.mpr ?_⟩
      exact Text.OneLine.append (by decide) (hn r.name (by simp [Program.toldName?, hr]))
  | @routine i t r tys rt ss σ ht hr =>
      refine List.forall_mem_append.mpr ⟨ho, List.forall_mem_singleton.mpr ?_⟩
      exact Text.OneLine.append (by decide) (hn t.name (by simp [Program.toldName?, ht, hr]))
  | native => exact ho
  | @emulation i t symbol signature e _ _ hd =>
      have hsymbol : Text.OneLine ("emulation of " ++ symbol) :=
        Text.OneLine.append (by decide) (T.of_resolve hd).oneLine
      exact List.forall_mem_append.mpr ⟨ho, List.forall_mem_singleton.mpr hsymbol⟩

end Declarations

section Lower

variable {p : Program} {s : Shader} {closure : Closure} {v : Version} {table : Table}
  {d : Dialect.Shader}

theorem quiet_lower (h : lower p s closure v table = .ok d) (T : table.Quiet) : d.Quiet := by
  obtain ⟨i, supply, hi, progress, hp, hm, P, -, -, hd⟩ := lower_eq_ok.mp h
  have hidents := (Interface.gives_of_assign hi).quiet
  have A := Interface.assigned_of_assign hi
  have Q := quiet_of_declareAll hp T hidents
  refine ⟨?_, ?_, ?_, hd ▸ Q.decls, quiet_lowerMain hm Q.context hidents⟩
  · rw [← List.forall_mem_map (f := Dialect.UniformVar.name), P.uniform_names]
    exact fun n hn => hidents n (List.mem_append_right _ hn)
  · rw [← List.forall_mem_map (f := Dialect.InterfaceVar.name), inputVars_names P.inputs A.inputs]
    exact fun n hn => hidents n (List.mem_append_left _ (List.mem_append_left _ hn))
  · rw [← List.forall_mem_map (f := Dialect.InterfaceVar.name)]
    intro n hn
    have hmem := (outputVars_names P.outputs A.outputs).subset hn
    exact hidents n (List.mem_append_left _ (List.mem_append_right _ hmem))

/-- What the comments of a lowered shader show is on one line, if the names of the source are. -/
theorem oneLine_lower (h : lower p s closure v table = .ok d) (T : table.Quiet)
    (hn : ∀ n ∈ toldNames p s closure, Text.OneLine n) :
    Text.OneLine d.name ∧ ∀ decl ∈ d.decls, Text.OneLine decl.origin.text := by
  obtain ⟨hname, hdecls⟩ := List.forall_mem_cons.mp hn
  obtain ⟨i, supply, -, progress, hp, -, -, hd, -, hds⟩ := lower_eq_ok.mp h
  rw [hd, hds]
  refine ⟨hname, declareAll_induct
    (motive := fun _ s => ∀ decl ∈ s.decls, Text.OneLine decl.origin.text) hp nofun
    fun pre d post s s' ho ih hs => hs.oneLine T (fun n hmem => hdecls n ?_) ih⟩
  exact List.mem_filterMap.mpr ⟨d, by simp [ho], hmem⟩

end Lower

end Lowering

end ShaderDialects
