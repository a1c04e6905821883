import ShaderDialects.Proofs.Legality.Expression
import ShaderDialects.Proofs.Lowering.Rebuilding

namespace ShaderDialects

def Form.operands? : Form → Option Nat
  | binary _ => some 2
  | unary _ => some 1
  | call _ | var _ => none

theorem Form.exists_build? {form : Form} (hv : form.isVariable = false) {args : List Dialect.Expr}
    (h : ∀ n ∈ form.operands?, args.length = n) : ∃ x, form.build? args = some x := by
  cases form with
  | call name => exact ⟨_, rfl⟩
  | binary op =>
      obtain ⟨l, r, rfl⟩ := List.length_eq_two.mp (h 2 rfl)
      exact ⟨_, rfl⟩
  | unary op =>
      obtain ⟨x, rfl⟩ := List.length_eq_one_iff.mp (h 1 rfl)
      exact ⟨_, rfl⟩
  | var name => cases hv

def TermKind.operands? (table : Table) (stage : Stage) (v : Version) : TermKind → Option Nat
  | external symbol signature =>
      match table.resolve symbol signature.kind v stage with
      | .ok (.native form) => form.operands?
      | _ => none
  | _ => none

namespace Expr

variable (p : Program) (table : Table) (stage : Stage) (v : Version)

def OwnOperandsFit : Expr → Prop
  | apply _ f args => ∀ t ∈ p.terms[f]?, ∀ n ∈ t.kind.operands? table stage v, args.length = n
  | _ => True

instance (e : Expr) : Decidable (e.OwnOperandsFit p table stage v) :=
  match e with
  | apply _ f args => inferInstanceAs (Decidable
      (∀ t ∈ p.terms[f]?, ∀ n ∈ t.kind.operands? table stage v, args.length = n))
  | literal _ _ | bound _ _ | term _ _ | input _ _ | parameter _ _ | cond _ _ _ _ | bind _ _ _ _
  | construct _ _ _ | field _ _ _ | swizzle _ _ _ => instDecidableTrue

/-- Operators are applied to as many operands as they take. -/
def OperandsFit (e : Expr) : Prop := ∀ x ∈ e.nodes, x.OwnOperandsFit p table stage v

instance (e : Expr) : Decidable (e.OperandsFit p table stage v) :=
  inferInstanceAs (Decidable (∀ x ∈ e.nodes, x.OwnOperandsFit p table stage v))

variable {p table stage v}

theorem operandsFit_iff {e : Expr} :
    e.OperandsFit p table stage v ↔
      e.OwnOperandsFit p table stage v ∧ ∀ x ∈ e.children, x.OperandsFit p table stage v := by
  rw [OperandsFit, nodes_eq, List.forall_mem_cons, List.forall_mem_flatMap]
  rfl

end Expr

namespace Lowering

open Dialect (Stmt)
open Legality (builtRecord?)

structure TermForm.Serves (table : Table) (stage : Stage) (v : Version) (k : TermKind)
    (form : TermForm) : Prop where
  read : k.valueTy?.isSome → ∃ x, form.read? = some x
  apply : k.functionTy?.isSome → ∀ args : List Dialect.Expr,
    (∀ n ∈ k.operands? table stage v, args.length = n) → ∃ x, form.applied? args = some x

/-- A context has what the declarations of a list are referred to by, and the interface of the
shader. -/
structure Ready (table : Table) (stage : Stage) (v : Version) (s : Shader) (c : Context)
    (ds : List DeclId) : Prop extends Structured c ds where
  terms : ∀ i, .term i ∈ ds → ∃ t form, c.program.terms[i]? = some t ∧
    c.terms.lookup i = some form ∧ form.Serves table stage v t.kind
  inputs : c.interface.inputs.length = s.inputs.length
  parameters : List.Forall₂
    (fun q us => c.program.flatten q.name q.ty = .ok (us.map BoundUniform.uniform)) s.parameters
    c.interface.parameters

def Covers (Γ : List (Nat × Ty)) (σ : Scope) : Prop :=
  ∀ id ty, Γ.lookup id = some ty → ∃ name, σ.locals.lookup id = some name

theorem Covers.bind {Γ : List (Nat × Ty)} {σ : Scope} (h : Covers Γ σ) (b : Binding)
    (name : String) : Covers ((b.id, b.ty) :: Γ) (σ.bind b.id name) := by
  intro id ty hty
  refine Scope.exists_lookup_bind fun hid => ?_
  rcases lookup_cons_eq_some hty with ⟨heq, _⟩ | hty
  · exact absurd heq hid
  · exact h id ty hty

theorem Lowers.exists_lookup {c : Context} {task : Task} {σ σ' : Scope} {ss : List Stmt}
    (h : Lowers c task σ ss σ') {id : Nat} (hid : ∃ name, σ.locals.lookup id = some name) :
    ∃ name, σ'.locals.lookup id = some name := by
  induction h with
  | literal | bound | term | input | path | nil => exact hid
  | apply _ _ ih | construct _ _ _ ih | field _ _ _ ih | swizzle _ ih | write _ _ ih => exact ih hid
  | hoistCond _ _ ih | hoistBind _ _ ih => exact ih hid
  | cons _ _ ih ih₁ | bind _ _ ih ih₁ => exact ih₁ (ih hid)
  | choose _ _ _ ih ih₁ ih₂ => exact ih₂ (ih₁ (ih hid))
  | assignLocal _ _ _ ih | initLocal _ _ _ ih =>
      exact Scope.exists_lookup_bind fun _ => ih hid

theorem Lowers.covers {c : Context} {task : Task} {σ σ' : Scope} {ss : List Stmt}
    (h : Lowers c task σ ss σ') {Γ : List (Nat × Ty)} (hσ : Covers Γ σ) : Covers Γ σ' :=
  fun id ty hty => h.exists_lookup (hσ id ty hty)

/-- An expression that nothing stands in the way of lowering. -/
structure Lowerable (table : Table) (stage : Stage) (v : Version) (p : Program) (s : Shader)
    (ds : List DeclId) (Γ : List (Nat × Ty)) (e : Expr) : Prop where
  noted : e.Noted p s Γ
  mentioned : ∀ d ∈ e.mentions, d ∈ ds
  operands : e.OperandsFit p table stage v
  built : ∀ x ∈ e.wholes, ∀ i, builtRecord? x = some i → p.holdsSampler (.record i) = .ok false

section Expr

variable {table : Table} {stage : Stage} {v : Version} {s : Shader} {c : Context}
  {ds : List DeclId} {Γ : List (Nat × Ty)} {σ : Scope}

theorem Lowerable.child {p : Program} {e x : Expr} (h : Lowerable table stage v p s ds Γ e)
    (hp : e.parameterPath? = none) (hx : x ∈ e.children) {Γ' : List (Nat × Ty)}
    (hn : x.Noted p s Γ') : Lowerable table stage v p s ds Γ' x := by
  refine ⟨hn, fun d hd => h.mentioned d (Expr.mentions_of_child hx hd),
    (Expr.operandsFit_iff.mp h.operands).2 x hx,
    fun y hy => h.built y (Expr.wholes_of_child hp hx hy)⟩

theorem Lowerable.own {p : Program} {e : Expr} (h : Lowerable table stage v p s ds Γ e)
    {d : DeclId} (hd : d ∈ e.ownMentions) : d ∈ ds :=
  h.mentioned d (Expr.mentions_of_own hd)

theorem Lowerable.ty {e : Expr} (h : Lowerable table stage v c.program s ds Γ e)
    (S : Structured c ds) : ∃ t, c.ty e.ty = .ok t :=
  S.ty fun _ hd => h.own (List.mem_append_left _ hd)

theorem Lowerable.path {p : Program} {e : Expr} (h : Lowerable table stage v p s ds Γ e)
    {q : Nat} {path : List Nat} (hp : e.parameterPath? = some (q, path)) {i : Nat}
    (hty : e.ty = .record i) : p.holdsSampler e.ty = .ok false := by
  rw [hty]
  refine h.built e e.mem_wholes_self i ?_
  cases e with
  | parameter n j | field n base j => simp [builtRecord?, hty, hp]
  | _ => simp [Expr.parameterPath?] at hp

variable (R : Ready table stage v s c ds)
include R

theorem Ready.exists_readTerm {t : Nat} {ty : Ty} (ht : .term t ∈ ds)
    (hty : c.program.valueTy? t = some ty) : ∃ x, c.readTerm t = .ok x := by
  obtain ⟨term, form, hterm, hform, hserves⟩ := R.terms t ht
  have hsome : term.kind.valueTy?.isSome := by
    simpa [Program.valueTy?, hterm] using Option.isSome_of_eq_some hty
  obtain ⟨x, hx⟩ := hserves.read hsome
  exact ⟨x, Context.readTerm_eq_ok.mpr ⟨form, hform, hx⟩⟩

theorem Ready.exists_applyTerm {f : Nat} {ty : Ty} (hf : .term f ∈ ds)
    (hty : c.program.resultTy? f = some ty) {args : List Dialect.Expr}
    (ha : ∀ t ∈ c.program.terms[f]?, ∀ n ∈ t.kind.operands? table stage v, args.length = n) :
    ∃ x, c.applyTerm f args = .ok x := by
  obtain ⟨term, form, hterm, hform, hserves⟩ := R.terms f hf
  have hsome : term.kind.functionTy?.isSome := by
    simpa [Program.resultTy?, Program.functionTy?, hterm] using Option.isSome_of_eq_some hty
  obtain ⟨x, hx⟩ := hserves.apply hsome args (ha term hterm)
  exact ⟨x, Context.applyTerm_eq_ok.mpr ⟨form, hform, hx⟩⟩

def Succeeds (c : Context) (σ : Scope) (e : Expr) : Prop :=
  (∃ x ss σ', Lowers c (.value e x) σ ss σ') ∧
    ∀ place, ∃ ss σ', Lowers c (.into e place) σ ss σ'

omit R in
theorem Succeeds.of_value {e : Expr} (hb : e.isBranching = false)
    (h : ∃ x ss σ', Lowers c (.value e x) σ ss σ') : Succeeds c σ e := by
  refine ⟨h, fun place => ?_⟩
  obtain ⟨x, ss, σ', hx⟩ := h
  exact ⟨_, _, .write hb hx⟩

omit R in
theorem exists_values {es : List Expr} (h : ∀ e ∈ es, ∀ σ, Covers Γ σ → Succeeds c σ e)
    (hσ : Covers Γ σ) :
    ∃ xs ss σ', Lowers c (.values es xs) σ ss σ' ∧ xs.length = es.length := by
  induction es generalizing σ with
  | nil => exact ⟨[], [], σ, .nil, rfl⟩
  | cons e es ih =>
      obtain ⟨he, hes⟩ := List.forall_mem_cons.mp h
      obtain ⟨⟨x, ss₁, σ₁, hx⟩, _⟩ := he σ hσ
      obtain ⟨xs, ss₂, σ₂, hxs, hlen⟩ := ih hes (hx.covers hσ)
      exact ⟨x :: xs, _, σ₂, .cons hx hxs, by simp [hlen]⟩

omit R in
theorem exists_declare {b : Binding} {value : Expr} (hty : ∃ t, c.ty b.ty = .ok t)
    (h : ∀ σ, Covers Γ σ → Succeeds c σ value) (hσ : Covers Γ σ) :
    ∃ ss σ', Lowers c (.declare b value) σ ss σ' ∧ Covers ((b.id, b.ty) :: Γ) σ' := by
  obtain ⟨t, ht⟩ := hty
  obtain ⟨⟨x, ss, σ₁, hx⟩, hinto⟩ := h (σ.fresh b.name).2 hσ
  cases hb : value.isBranching with
  | false => exact ⟨_, _, .initLocal hb ht hx, (hx.covers hσ).bind b _⟩
  | true =>
      obtain ⟨ss, σ', hi⟩ := hinto (.assign (σ.fresh b.name).1)
      exact ⟨_, _, .assignLocal hb ht hi, (hi.covers hσ).bind b _⟩

theorem exists_lowers_path {e : Expr} (h : Lowerable table stage v c.program s ds Γ e) {q : Nat}
    {path : List Nat} (hp : e.parameterPath? = some (q, path)) :
    ∃ x ss σ', Lowers c (.value e x) σ ss σ' := by
  obtain ⟨x, hx⟩ := exists_rebuild R.toStructured R.parameters h.noted hp
    (fun d hd => h.own (List.mem_append_left _ hd)) fun i hi => h.path hp hi
  exact ⟨x, [], σ, .path hp hx⟩

theorem Ready.exists_fieldName {base : Expr} {i : Nat} {ty : Ty}
    (h : Lowerable table stage v c.program s ds Γ base)
    (ht : c.program.fieldTy? base.ty i = some ty) : ∃ name, c.fieldName base.ty i = .ok name := by
  cases hty : base.ty with
  | leaf t => simp [hty, Program.fieldTy?] at ht
  | record r =>
      obtain ⟨tys, htys, hi⟩ : ∃ tys, c.program.fieldTys? r = some tys ∧ tys[i]? = some ty := by
        simpa [hty, Program.fieldTy?, Option.bind_eq_some_iff] using ht
      obtain ⟨name, hname⟩ := R.declared r (h.own (by simp [Expr.ownMentions, hty, Ty.mentions]))
      have hlt : i < (c.program.fieldNames r).length := by
        rw [Program.length_fieldNames htys]
        exact (List.getElem?_eq_some_iff.mp hi).1
      exact ⟨_, Context.fieldName_eq_ok.mpr ⟨r, _, rfl, hname, List.getElem?_eq_getElem hlt⟩⟩

theorem succeeds {e : Expr} (h : Lowerable table stage v c.program s ds Γ e) (hσ : Covers Γ σ) :
    Succeeds c σ e := by
  induction e generalizing Γ σ with
  | literal n l => exact .of_value rfl ⟨_, _, _, .literal⟩
  | bound n id =>
      obtain ⟨name, hname⟩ := hσ id n.ty h.noted
      exact .of_value rfl ⟨_, _, _, .bound hname⟩
  | term n t =>
      obtain ⟨x, hx⟩ := R.exists_readTerm (h.own (by simp [Expr.ownMentions])) h.noted
      exact .of_value rfl ⟨_, _, _, .term hx⟩
  | input n i =>
      obtain ⟨slot, hs, _⟩ := Option.map_eq_some_iff.mp h.noted
      have hlt : i < c.interface.inputs.length := R.inputs ▸ (List.getElem?_eq_some_iff.mp hs).1
      exact .of_value rfl ⟨_, _, _, .input (List.getElem?_eq_getElem hlt)⟩
  | parameter n i => exact .of_value rfl (exists_lowers_path R h rfl)
  | apply n f args ih =>
      have hargs (e : Expr) (he : e ∈ args) (σ : Scope) (hσ : Covers Γ σ) : Succeeds c σ e :=
        ih e he (h.child rfl he (Expr.notedAll_iff.mp h.noted.1 e he)) hσ
      obtain ⟨xs, ss, σ', hxs, hlen⟩ := exists_values hargs hσ
      have hfit := (Expr.operandsFit_iff.mp h.operands).1
      rw [Expr.OwnOperandsFit, ← hlen] at hfit
      obtain ⟨x, hx⟩ := R.exists_applyTerm (h.own (by simp [Expr.ownMentions])) h.noted.2 hfit
      exact .of_value rfl ⟨_, _, _, .apply hxs hx⟩
  | cond n a b d iha ihb ihd =>
      obtain ⟨hna, hnb, hnd, _, _⟩ := h.noted
      have into (place : Place) (σ : Scope) (hσ : Covers Γ σ) :
          ∃ ss σ', Lowers c (.into (.cond n a b d) place) σ ss σ' := by
        obtain ⟨⟨x, ss, σ₁, hx⟩, _⟩ := iha (h.child rfl (by simp [Expr.children]) hna) hσ
        have hσ₁ := hx.covers hσ
        obtain ⟨_, haccept⟩ := ihb (h.child rfl (by simp [Expr.children]) hnb) hσ₁
        obtain ⟨accept, σ₂, ha⟩ := haccept place
        obtain ⟨_, hreject⟩ := ihd (h.child rfl (by simp [Expr.children]) hnd) (ha.covers hσ₁)
        obtain ⟨reject, σ₃, hr⟩ := hreject place
        exact ⟨_, σ₃, .choose hx ha hr⟩
      obtain ⟨t, ht⟩ := h.ty R.toStructured
      obtain ⟨ss, σ', hi⟩ := into (.assign σ.temporary.1) σ.temporary.2 hσ
      exact ⟨⟨_, _, _, .hoistCond ht hi⟩, fun place => into place σ hσ⟩
  | bind n b value body ihv ihb =>
      obtain ⟨hnv, hnb, hty, _⟩ := h.noted
      have hvalue := h.child rfl (by simp [Expr.children]) hnv
      have into (place : Place) (σ : Scope) (hσ : Covers Γ σ) :
          ∃ ss σ', Lowers c (.into (.bind n b value body) place) σ ss σ' := by
        obtain ⟨ss₁, σ₁, hv, hσ₁⟩ := exists_declare (hty ▸ hvalue.ty R.toStructured)
          (fun σ hσ => ihv hvalue hσ) hσ
        obtain ⟨_, hbody⟩ := ihb (h.child rfl (by simp [Expr.children]) hnb) hσ₁
        obtain ⟨ss₂, σ₂, hb⟩ := hbody place
        exact ⟨_, σ₂, .bind hv hb⟩
      obtain ⟨t, ht⟩ := h.ty R.toStructured
      obtain ⟨ss, σ', hi⟩ := into (.assign σ.temporary.1) σ.temporary.2 hσ
      exact ⟨⟨_, _, _, .hoistBind ht hi⟩, fun place => into place σ hσ⟩
  | construct n r fields ih =>
      have hfields (e : Expr) (he : e ∈ fields) (σ : Scope) (hσ : Covers Γ σ) : Succeeds c σ e :=
        ih e he (h.child rfl he (Expr.notedAll_iff.mp h.noted.1 e he)) hσ
      obtain ⟨xs, ss, σ', hxs, _⟩ := exists_values hfields hσ
      have hty : (Expr.construct n r fields).ty = .record r := h.noted.2
      have hbuilt := h.built (.construct n r fields) (by simp [Expr.wholes]) r
        (by simp [builtRecord?, hty])
      obtain ⟨name, hname⟩ := R.declared r (h.own (by simp [Expr.ownMentions]))
      exact .of_value rfl ⟨_, _, _, .construct (Context.constructible_eq_ok.mpr hbuilt) hxs
        (Context.structNames_eq_ok.mpr hname)⟩
  | field n base i ih =>
      refine .of_value rfl ?_
      cases hp : (Expr.field n base i).parameterPath? with
      | some qp => exact exists_lowers_path R h hp
      | none =>
          have hbase := h.child hp (by simp [Expr.children]) h.noted.1
          obtain ⟨name, hname⟩ := R.exists_fieldName hbase h.noted.2
          obtain ⟨⟨x, ss, σ', hx⟩, _⟩ := ih hbase hσ
          exact ⟨_, _, _, .field hp hname hx⟩
  | swizzle n base sw ih =>
      have hbase := h.child rfl (by simp [Expr.children]) h.noted.1
      obtain ⟨⟨x, ss, σ', hx⟩, _⟩ := ih hbase hσ
      exact .of_value rfl ⟨_, _, _, .swizzle hx⟩

end Expr

end Lowering

end ShaderDialects
