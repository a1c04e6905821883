import ShaderDialects.Proofs.Legality.Construct
import ShaderDialects.Proofs.Legality.Lowered
import ShaderDialects.Proofs.Lowering.Context
import ShaderDialects.Proofs.Lowering.Scope
import ShaderDialects.Proofs.Source.Notes

namespace ShaderDialects

namespace Expr

def binding? : Expr → Option Binding
  | bind _ b _ _ => some b
  | _ => none

theorem wholesOf_eq_flatMap (es : List Expr) : wholesOf es = es.flatMap wholes := by
  induction es with
  | nil => rfl
  | cons e es ih => simp [wholesOf, ih]

theorem wholes_eq (e : Expr) :
    e.wholes = e :: if e.parameterPath?.isSome then [] else e.children.flatMap wholes := by
  cases e <;> simp [wholes, children, wholesOf_eq_flatMap, parameterPath?]

theorem mem_wholes_self (e : Expr) : e ∈ e.wholes := by
  rw [wholes_eq]
  exact List.mem_cons_self

theorem wholes_of_child {e child : Expr} (hp : e.parameterPath? = none) (hc : child ∈ e.children)
    {x : Expr} (hx : x ∈ child.wholes) : x ∈ e.wholes := by
  rw [wholes_eq, hp]
  exact List.mem_cons_of_mem _ (List.mem_flatMap.mpr ⟨child, hc, hx⟩)

/-- Outside of a chain of fields of a parameter, a property of all that values are made of is one of
the node and of its parts. -/
theorem forall_wholes {P : Expr → Prop} {e : Expr} (hp : e.parameterPath? = none) :
    (∀ x ∈ e.wholes, P x) ↔ P e ∧ ∀ child ∈ e.children, ∀ x ∈ child.wholes, P x := by
  rw [wholes_eq, hp, List.forall_mem_cons]
  simp only [Option.isSome_none, Bool.false_eq_true, if_false, List.forall_mem_flatMap]

@[elab_as_elim]
theorem inductChildren {motive : Expr → Prop}
    (step : ∀ e, (∀ x ∈ e.children, motive x) → motive e) (e : Expr) : motive e := by
  induction e with
  | literal | bound | term | input | parameter => exact step _ nofun
  | apply n f args ih | construct n r fields ih => exact step _ ih
  | cond n c a r ihc iha ihr => exact step _ (by simp [children, ihc, iha, ihr])
  | bind n b value body ihv ihb => exact step _ (by simp [children, ihv, ihb])
  | field n base i ih | swizzle n base s ih => exact step _ (List.forall_mem_singleton.mpr ih)

theorem mentions_of_wholes {e x : Expr} (hx : x ∈ e.wholes) {d : DeclId} (hd : d ∈ x.mentions) :
    d ∈ e.mentions := by
  induction e using inductChildren with
  | step e ih =>
      rw [wholes_eq] at hx
      rcases List.mem_cons.mp hx with rfl | hx
      · exact hd
      · split at hx
        · exact absurd hx List.not_mem_nil
        · obtain ⟨child, hc, hx⟩ := List.mem_flatMap.mp hx
          exact mentions_of_child hc (ih child hc hx)

end Expr

namespace Legality

variable {p : Program} {v : Version}

def UsesAllowed (v : Version) (e : Expr) : Prop := ∀ use ∈ usesOfExpr e, leafRule use.1 v = none

theorem usesOfNode_allowed {e : Expr} :
    (∀ use ∈ usesOfNode e, leafRule use.1 v = none) ↔
      TyAllowed v e.ty ∧ ∀ b ∈ e.binding?, TyAllowed v b.ty := by
  cases e with
  | bind n b value body =>
      simp only [usesOfNode, List.forall_mem_append, usesOfTy_allowed, Expr.binding?,
        Option.mem_some_iff, forall_eq']
  | _ =>
      simp only [usesOfNode, List.append_nil, usesOfTy_allowed]
      simp [Expr.binding?]

theorem usesAllowed_iff {e : Expr} :
    UsesAllowed v e ↔ TyAllowed v e.ty ∧ (∀ b ∈ e.binding?, TyAllowed v b.ty) ∧
      ∀ x ∈ e.children, UsesAllowed v x := by
  rw [UsesAllowed, usesOfExpr, Expr.nodes_eq, List.flatMap_cons, List.forall_mem_append,
    usesOfNode_allowed, List.flatMap_assoc, List.forall_mem_flatMap, and_assoc]
  rfl

theorem exprAllowed_iff {e : Expr} (hp : e.parameterPath? = none) :
    ExprAllowed p v e ↔ TyAllowed v e.ty ∧ (∀ b ∈ e.binding?, TyAllowed v b.ty) ∧
      (∀ i, builtRecord? e = some i → p.holdsSampler (.record i) = .ok false) ∧
        ∀ x ∈ e.children, ExprAllowed p v x := by
  constructor
  · rintro ⟨hu, hw⟩
    obtain ⟨ht, hbind, hchildren⟩ := usesAllowed_iff.mp hu
    obtain ⟨hself, hbuilt⟩ := (Expr.forall_wholes hp).mp hw
    exact ⟨ht, hbind, hself, fun x hx => ⟨hchildren x hx, hbuilt x hx⟩⟩
  · rintro ⟨ht, hbind, hself, hchildren⟩
    exact ⟨usesAllowed_iff.mpr ⟨ht, hbind, fun x hx => (hchildren x hx).uses⟩,
      (Expr.forall_wholes hp).mpr ⟨hself, fun x hx => (hchildren x hx).built⟩⟩

theorem ExprAllowed.ty {e : Expr} (h : ExprAllowed p v e) : TyAllowed v e.ty :=
  (usesAllowed_iff.mp h.uses).1

end Legality

namespace Lowering

open Dialect (Stmt)
open Legality

def Task.Forall (P : Expr → Prop) : Task → Prop
  | value e _ | into e _ | declare _ e => P e
  | values es _ => ∀ e ∈ es, P e

def Task.Gives (P : Dialect.Expr → Prop) : Task → Prop
  | value _ x => P x
  | values _ xs => ∀ x ∈ xs, P x
  | into _ _ | declare _ _ => True

def Task.Noted (p : Program) (s : Shader) (Γ : List (Nat × Ty)) : Task → Prop
  | value e _ | into e _ => e.Noted p s Γ
  | values es _ => ∀ e ∈ es, e.Noted p s Γ
  | declare b e => e.Noted p s Γ ∧ e.ty = b.ty

variable {c : Context} {table : Table} {stage : Stage} {v : Version}

theorem legalTy_of_ty {ty : Ty} {ty' : Dialect.Ty} (h : c.ty ty = .ok ty') :
    LegalTy v ty' ↔ TyAllowed v ty := by
  cases ty with
  | leaf t =>
      obtain rfl := Context.ty_leaf_eq_ok.mp h
      simp [TyAllowed]
  | record i =>
      obtain ⟨names, _, rfl⟩ := Context.ty_record_eq_ok.mp h
      simp [TyAllowed]

theorem legalCode_write {place : Place} {x : Dialect.Expr} :
    LegalCode table stage v [place.write x] ↔ LegalExpr table stage v x := by
  cases place with
  | result => exact legalCode_return
  | assign name => exact legalCode_assign

theorem legalExpr_rebuildWithin {depth parameter : Nat} {path : List Nat} {ty : Ty}
    {x : Dialect.Expr} (h : c.rebuildWithin depth parameter path ty = .ok x) :
    LegalExpr table stage v x :=
  Context.rebuildWithin_induct h (fun _ _ _ => legalExpr_var _) fun _ _ _ _ => legalExpr_user.mpr

theorem readTerm_own {t : Nat} {x : Dialect.Expr} (h : c.readTerm t = .ok x) :
    x.children = [] ∧ (∀ l, x ≠ .literal l) ∧
      ∀ form, x.form? = some form → c.terms.lookup t = some (.native form) := by
  obtain ⟨form, hform, hx⟩ := Context.readTerm_eq_ok.mp h
  cases form with
  | value name | emulatedConstant name =>
      cases hx
      exact ⟨rfl, nofun, nofun⟩
  | function name | emulatedFunction name => cases hx
  | native form =>
      cases form with
      | var name =>
          cases hx
          refine ⟨rfl, nofun, fun form h => ?_⟩
          cases h
          exact hform
      | call name | binary op | unary op => cases hx

theorem applyTerm_own {f : Nat} {xs : List Dialect.Expr} {x : Dialect.Expr}
    (h : c.applyTerm f xs = .ok x) :
    x.children = xs ∧ (∀ l, x ≠ .literal l) ∧
      ∀ form, x.form? = some form → c.terms.lookup f = some (.native form) := by
  obtain ⟨form, hform, hx⟩ := Context.applyTerm_eq_ok.mp h
  cases form with
  | function name | emulatedFunction name =>
      cases hx
      exact ⟨rfl, nofun, nofun⟩
  | value name | emulatedConstant name => cases hx
  | native form =>
      have hown {y : Dialect.Expr} (hy : y.form? = some form) (form' : Form)
          (h : y.form? = some form') : c.terms.lookup f = some (.native form') := by
        obtain rfl := Option.some.inj (hy.symm.trans h)
        exact hform
      cases form with
      | call name =>
          cases hx
          exact ⟨rfl, nofun, hown rfl⟩
      | binary op =>
          obtain ⟨l, r, rfl, rfl⟩ := Form.build?_binary.mp hx
          exact ⟨rfl, nofun, hown rfl⟩
      | unary op =>
          obtain ⟨operand, rfl, rfl⟩ := Form.build?_unary.mp hx
          exact ⟨rfl, nofun, hown rfl⟩
      | var name => cases hx

section Forward

variable (hn : ∀ i form, c.terms.lookup i = some (.native form) → Available table stage v form)
include hn

theorem legalExpr_readTerm {t : Nat} {x : Dialect.Expr} (h : c.readTerm t = .ok x) :
    LegalExpr table stage v x := by
  obtain ⟨hchildren, hliteral, hforms⟩ := readTerm_own h
  refine legalExpr_of_own hliteral (fun form hform => hn t form (hforms form hform)) ?_
  simp [hchildren]

theorem legalExpr_applyTerm {f : Nat} {xs : List Dialect.Expr} {x : Dialect.Expr}
    (h : c.applyTerm f xs = .ok x) (hxs : ∀ y ∈ xs, LegalExpr table stage v y) :
    LegalExpr table stage v x := by
  obtain ⟨rfl, hliteral, hforms⟩ := applyTerm_own h
  exact legalExpr_of_own hliteral (fun form hform => hn f form (hforms form hform)) hxs

/-- What is lowered from an allowed expression is legal. -/
theorem Lowers.legal {p : Program} {s : Shader} {task : Task} {σ σ' : Scope} {ss : List Stmt}
    (h : Lowers c task σ ss σ') {Γ : List (Nat × Ty)} (ht : task.Noted p s Γ)
    (hu : task.Forall (UsesAllowed v)) :
    LegalCode table stage v ss ∧ task.Gives (LegalExpr table stage v) := by
  induction h generalizing Γ with
  | @literal n l σ =>
      refine ⟨legalCode_nil, legalExpr_literal.mpr ?_⟩
      exact (usesAllowed_iff.mp hu).1 _ ht
  | bound | input => exact ⟨legalCode_nil, legalExpr_var _⟩
  | term hx => exact ⟨legalCode_nil, legalExpr_readTerm hn hx⟩
  | path hp hx => exact ⟨legalCode_nil, legalExpr_rebuildWithin hx⟩
  | apply ha hx ih =>
      obtain ⟨hcode, hxs⟩ := ih (Expr.notedAll_iff.mp ht.1) (usesAllowed_iff.mp hu).2.2
      exact ⟨hcode, legalExpr_applyTerm hn hx hxs⟩
  | construct _ _ _ ih =>
      obtain ⟨hcode, hxs⟩ := ih (Expr.notedAll_iff.mp ht.1) (usesAllowed_iff.mp hu).2.2
      exact ⟨hcode, legalExpr_user.mpr hxs⟩
  | field _ _ _ ih =>
      obtain ⟨hcode, hx⟩ := ih ht.1 ((usesAllowed_iff.mp hu).2.2 _ (by simp [Expr.children]))
      exact ⟨hcode, legalExpr_field.mpr hx⟩
  | swizzle _ ih =>
      obtain ⟨hcode, hx⟩ := ih ht.1 ((usesAllowed_iff.mp hu).2.2 _ (by simp [Expr.children]))
      exact ⟨hcode, legalExpr_swizzle.mpr hx⟩
  | hoistCond hty _ ih =>
      refine ⟨legalCode_declare.mpr ⟨?_, by simp, (ih ht hu).1⟩, legalExpr_var _⟩
      exact (legalTy_of_ty hty).mpr (usesAllowed_iff.mp hu).1
  | hoistBind hty _ ih =>
      refine ⟨legalCode_declare.mpr ⟨?_, by simp, legalCode_block.mpr (ih ht hu).1⟩, legalExpr_var _⟩
      exact (legalTy_of_ty hty).mpr (usesAllowed_iff.mp hu).1
  | nil => exact ⟨legalCode_nil, by simp [Task.Gives]⟩
  | cons _ _ ih ihs =>
      obtain ⟨hcode, hx⟩ := ih (ht _ (by simp)) (hu _ (by simp))
      obtain ⟨hcodes, hxs⟩ := ihs (fun e he => ht e (by simp [he])) (fun e he => hu e (by simp [he]))
      exact ⟨legalCode_append.mpr ⟨hcode, hcodes⟩, List.forall_mem_cons.mpr ⟨hx, hxs⟩⟩
  | write _ _ ih =>
      obtain ⟨hcode, hx⟩ := ih ht hu
      exact ⟨legalCode_append.mpr ⟨hcode, legalCode_write.mpr hx⟩, trivial⟩
  | choose _ _ _ ihc iha ihr =>
      obtain ⟨_, _, hchildren⟩ := usesAllowed_iff.mp hu
      obtain ⟨hc, hx⟩ := ihc ht.1 (hchildren _ (by simp [Expr.children]))
      obtain ⟨ha, _⟩ := iha ht.2.1 (hchildren _ (by simp [Expr.children]))
      obtain ⟨hr, _⟩ := ihr ht.2.2.1 (hchildren _ (by simp [Expr.children]))
      exact ⟨legalCode_append.mpr ⟨hc, legalCode_cond.mpr ⟨hx, ha, hr⟩⟩, trivial⟩
  | bind _ _ ihv ihb =>
      obtain ⟨_, _, hchildren⟩ := usesAllowed_iff.mp hu
      obtain ⟨hv, _⟩ := ihv ⟨ht.1, ht.2.2.1⟩ (hchildren _ (by simp [Expr.children]))
      obtain ⟨hb, _⟩ := ihb ht.2.1 (hchildren _ (by simp [Expr.children]))
      exact ⟨legalCode_append.mpr ⟨hv, hb⟩, trivial⟩
  | assignLocal _ hty _ ih =>
      refine ⟨legalCode_declare.mpr ⟨(legalTy_of_ty hty).mpr ?_, by simp, (ih ht.1 hu).1⟩, trivial⟩
      exact ht.2 ▸ (usesAllowed_iff.mp hu).1
  | initLocal _ hty _ ih =>
      obtain ⟨hcode, hx⟩ := ih ht.1 hu
      have hlegal := (legalTy_of_ty hty).mpr (ht.2 ▸ (usesAllowed_iff.mp hu).1)
      refine ⟨legalCode_append.mpr ⟨hcode, legalCode_declare.mpr ⟨hlegal, ?_, legalCode_nil⟩⟩, trivial⟩
      simpa [Task.Gives] using hx

end Forward

section Backward

structure TypesAllowed (p : Program) (s : Shader) (v : Version) (ds : List DeclId) : Prop where
  inputs : ∀ q ∈ s.inputs, TyAllowed v q.ty
  parameters : ∀ q ∈ s.parameters, TyAllowed v q.ty
  records : ∀ i r, .record i ∈ ds → p.records[i]? = some r → ∀ f ∈ r.fields, TyAllowed v f.ty
  values : ∀ t ty, .term t ∈ ds → p.valueTy? t = some ty → TyAllowed v ty
  functions : ∀ f ty, .term f ∈ ds → p.resultTy? f = some ty → TyAllowed v ty

variable {p : Program} {s : Shader} {ds : List DeclId} (K : TypesAllowed p s v ds)
include K

theorem TypesAllowed.field {base : Expr} {i : Nat} {ty : Ty} (hm : ∀ d ∈ base.mentions, d ∈ ds)
    (ht : p.fieldTy? base.ty i = some ty) : TyAllowed v ty := by
  cases hb : base.ty with
  | leaf t => simp [hb, Program.fieldTy?] at ht
  | record r =>
      obtain ⟨tys, htys, hi⟩ : ∃ tys, p.fieldTys? r = some tys ∧ tys[i]? = some ty := by
        simpa [hb, Program.fieldTy?, Option.bind_eq_some_iff] using ht
      obtain ⟨record, hr, rfl⟩ := Option.map_eq_some_iff.mp htys
      obtain ⟨f, hf, rfl⟩ := List.mem_map.mp (List.mem_of_getElem? hi)
      have hmem : DeclId.record r ∈ base.mentions :=
        Expr.mentions_of_own (by simp [Expr.ownMentions, hb, Ty.mentions])
      exact K.records r record (hm _ hmem) hr f hf

theorem usesAllowed_of_path {e : Expr} {Γ : List (Nat × Ty)} (ht : e.Noted p s Γ)
    (hm : ∀ d ∈ e.mentions, d ∈ ds) {q : Nat} {path : List Nat}
    (hp : e.parameterPath? = some (q, path)) : UsesAllowed v e := by
  induction e generalizing q path with
  | parameter n i =>
      obtain ⟨slot, hs, hty⟩ := Option.map_eq_some_iff.mp ht
      have hslot := K.parameters slot (List.mem_of_getElem? hs)
      rw [hty] at hslot
      exact usesAllowed_iff.mpr ⟨hslot, by simp [Expr.binding?], by simp [Expr.children]⟩
  | field n base i ih =>
      obtain ⟨⟨q', path'⟩, hbase, _⟩ := Option.map_eq_some_iff.mp hp
      have hmb (d : DeclId) (hd : d ∈ base.mentions) : d ∈ ds :=
        hm d (Expr.mentions_of_child (by simp [Expr.children]) hd)
      refine usesAllowed_iff.mpr ⟨K.field hmb ht.2, by simp [Expr.binding?], fun x hx => ?_⟩
      obtain rfl : x = base := by simpa [Expr.children] using hx
      exact ih ht.1 hmb hbase
  | _ => simp [Expr.parameterPath?] at hp

theorem exprAllowed_of_path (hprogram : c.program = p) {e : Expr} {Γ : List (Nat × Ty)}
    (ht : e.Noted p s Γ) (hm : ∀ d ∈ e.mentions, d ∈ ds) {q : Nat} {path : List Nat}
    (hp : e.parameterPath? = some (q, path)) {x : Dialect.Expr}
    (hx : c.rebuild q path e.ty = .ok x) : ExprAllowed p v e := by
  refine ⟨usesAllowed_of_path K ht hm hp, fun y hy i hi => ?_⟩
  obtain rfl : y = e := by simpa [Expr.wholes_eq, hp] using hy
  have hty : y.ty = .record i := by
    cases y with
    | parameter n j | field n base j =>
        cases hn : n.ty <;> simp_all [builtRecord?, Expr.ty, Expr.note]
    | _ => simp [Expr.parameterPath?] at hp
  rw [hty] at hx
  obtain ⟨hc, _⟩ := Context.rebuildWithin_record.mp hx
  rw [← hprogram]
  exact Context.constructible_eq_ok.mp hc

omit K in
theorem builtRecord?_eq_none {e : Expr} (hp : e.parameterPath? = none)
    (hc : ∀ n r fields, e ≠ .construct n r fields) : builtRecord? e = none := by
  rw [builtRecord?.eq_def]
  split
  next n r fields _ _ => exact absurd rfl (hc n r fields)
  next => simp [hp]
  next => rfl

omit K in
theorem leafRule_swizzled {t u : Leaf} {sw : Swizzle} (h : t.swizzled? sw = some u)
    (ht : leafRule t v = none) : leafRule u v = none := by
  cases t with
  | vector k size =>
      have hu : u = .scalar k ∨ ∃ n, u = .vector k n := by
        rw [Leaf.swizzled?] at h
        split at h
        · split at h
          · exact .inl (Option.some.inj h).symm
          · obtain ⟨n, _, rfl⟩ := Option.map_eq_some_iff.mp h
            exact .inr ⟨n, rfl⟩
        · cases h
      rw [leafRule_eq_none] at ht ⊢
      obtain rfl | ⟨n, rfl⟩ := hu
      · exact ⟨ht.1, nofun⟩
      · exact ⟨ht.1, nofun⟩
  | _ => cases h

omit K in
theorem tyAllowed_swizzled {ty ty' : Ty} {sw : Swizzle} (h : ty.swizzled? sw = some ty')
    (ht : TyAllowed v ty) : TyAllowed v ty' := by
  obtain ⟨u, hu, rfl⟩ := Option.map_eq_some_iff.mp h
  obtain ⟨t, hty, hu⟩ := Option.bind_eq_some_iff.mp hu
  intro t' ht'
  cases ht'
  cases ty with
  | leaf t₀ =>
      cases hty
      exact leafRule_swizzled hu (ht t rfl)
  | record i => cases hty

omit K in
theorem legalExpr_of_applyTerm {f : Nat} {xs : List Dialect.Expr} {x : Dialect.Expr}
    (h : c.applyTerm f xs = .ok x) (hx : LegalExpr table stage v x) :
    ∀ y ∈ xs, LegalExpr table stage v y := by
  obtain ⟨form, _, h⟩ := Context.applyTerm_eq_ok.mp h
  cases form with
  | function name | emulatedFunction name =>
      cases h
      exact legalExpr_user.mp hx
  | value name | emulatedConstant name => cases h
  | native form =>
      cases form with
      | call name =>
          cases h
          exact (legalExpr_native.mp hx).2
      | binary op =>
          obtain ⟨l, r, rfl, rfl⟩ := Form.build?_binary.mp h
          simpa using (legalExpr_binary.mp hx).2
      | unary op =>
          obtain ⟨operand, rfl, rfl⟩ := Form.build?_unary.mp h
          simpa using (legalExpr_unary.mp hx).2
      | var name => cases h

/-- If what is lowered from an expression is legal, so is the expression. -/
theorem Lowers.allowed (hprogram : c.program = p) {task : Task} {σ σ' : Scope} {ss : List Stmt}
    (h : Lowers c task σ ss σ') {Γ : List (Nat × Ty)} (ht : task.Noted p s Γ)
    (hm : task.Forall fun e => ∀ d ∈ e.mentions, d ∈ ds)
    (hΓ : ∀ id ty, Γ.lookup id = some ty → TyAllowed v ty) (hcode : LegalCode table stage v ss)
    (hgives : task.Gives (LegalExpr table stage v)) : task.Forall (ExprAllowed p v) := by
  have child {e x : Expr} (hm : ∀ d ∈ e.mentions, d ∈ ds) (hx : x ∈ e.children) :
      ∀ d ∈ x.mentions, d ∈ ds := fun d hd => hm d (Expr.mentions_of_child hx hd)
  have own {e : Expr} (hm : ∀ d ∈ e.mentions, d ∈ ds) {d : DeclId} (hd : d ∈ e.ownMentions) :
      d ∈ ds := hm d (Expr.mentions_of_own hd)
  -- A node that builds no record is allowed if its type and its parts are.
  have node {e : Expr} (hp : e.parameterPath? = none)
      (hc : ∀ n r fields, e ≠ .construct n r fields) (ht : TyAllowed v e.ty)
      (hb : ∀ b ∈ e.binding?, TyAllowed v b.ty) (hx : ∀ x ∈ e.children, ExprAllowed p v x) :
      ExprAllowed p v e :=
    (exprAllowed_iff hp).mpr ⟨ht, hb, by simp [builtRecord?_eq_none hp hc], hx⟩
  have atom {e : Expr} (hp : e.parameterPath? = none)
      (hc : ∀ n r fields, e ≠ .construct n r fields) (ht : TyAllowed v e.ty)
      (hb : e.binding? = none) (hx : e.children = []) : ExprAllowed p v e :=
    node hp hc ht (by simp [hb]) (by simp [hx])
  induction h generalizing Γ with
  | @literal n l σ =>
      have hl : TyAllowed v (.leaf l.leaf) := by simpa [TyAllowed] using legalExpr_literal.mp hgives
      rw [← show n.ty = _ from ht] at hl
      exact atom rfl (by simp) hl rfl rfl
  | bound => exact atom rfl (by simp) (hΓ _ _ ht) rfl rfl
  | @term n t x σ _ =>
      have hty : TyAllowed v n.ty := K.values t n.ty (own hm (by simp [Expr.ownMentions])) ht
      exact atom rfl (by simp) hty rfl rfl
  | @input n i item σ _ =>
      obtain ⟨slot, hs, hty⟩ := Option.map_eq_some_iff.mp ht
      have hslot := K.inputs slot (List.mem_of_getElem? hs)
      rw [hty] at hslot
      exact atom rfl (by simp) hslot rfl rfl
  | path hp hx => exact exprAllowed_of_path K hprogram ht hm hp hx
  | @apply n f args xs x σ ss σ' _ hx ih =>
      have hargs := ih (Expr.notedAll_iff.mp ht.1) (fun e he => child hm he) hΓ hcode
        (legalExpr_of_applyTerm hx hgives)
      have hty : TyAllowed v n.ty := K.functions f n.ty (own hm (by simp [Expr.ownMentions])) ht.2
      exact node rfl (by simp) hty (by simp [Expr.binding?]) hargs
  | @construct n r fields xs names σ ss σ' hr _ _ ih =>
      have hfields := ih (Expr.notedAll_iff.mp ht.1) (fun e he => child hm he) hΓ hcode
        (legalExpr_user.mp hgives)
      have hty : (Expr.construct n r fields).ty = .record r := ht.2
      refine (exprAllowed_iff rfl).mpr
        ⟨by simp [hty, TyAllowed], by simp [Expr.binding?], fun i hi => ?_, hfields⟩
      obtain rfl : r = i := by simpa [builtRecord?, hty] using hi
      rw [← hprogram]
      exact Context.constructible_eq_ok.mp hr
  | @field n base i x name σ ss σ' hp _ _ ih =>
      have hmb : ∀ d ∈ base.mentions, d ∈ ds := child hm (by simp [Expr.children])
      have hbase : ExprAllowed p v base := ih ht.1 hmb hΓ hcode (legalExpr_field.mp hgives)
      exact node hp (by simp) (K.field hmb ht.2) (by simp [Expr.binding?])
        (by simpa [Expr.children] using hbase)
  | @swizzle n base sw x σ ss σ' _ ih =>
      have hbase : ExprAllowed p v base :=
        ih ht.1 (child hm (by simp [Expr.children])) hΓ hcode (legalExpr_swizzle.mp hgives)
      have hty : TyAllowed v n.ty := tyAllowed_swizzled ht.2 (ExprAllowed.ty hbase)
      exact node rfl (by simp) hty (by simp [Expr.binding?]) (by simpa [Expr.children] using hbase)
  | hoistCond _ _ ih => exact ih ht hm hΓ (legalCode_declare.mp hcode).2.2 trivial
  | hoistBind _ _ ih =>
      exact ih ht hm hΓ (legalCode_block.mp (legalCode_declare.mp hcode).2.2) trivial
  | nil => simp [Task.Forall]
  | cons _ _ ih ihs =>
      obtain ⟨hhead, htail⟩ := legalCode_append.mp hcode
      obtain ⟨hx, hxs⟩ := List.forall_mem_cons.mp hgives
      exact List.forall_mem_cons.mpr ⟨ih (ht _ (by simp)) (hm _ (by simp)) hΓ hhead hx,
        ihs (fun e he => ht e (by simp [he])) (fun e he => hm e (by simp [he])) hΓ htail hxs⟩
  | write _ _ ih =>
      obtain ⟨hss, hx⟩ := legalCode_append.mp hcode
      exact ih ht hm hΓ hss (legalCode_write.mp hx)
  | @choose n a b d x place σ σ₁ σ₂ σ₃ ss accept reject _ _ _ ihc iha ihr =>
      obtain ⟨hss, hcond⟩ := legalCode_append.mp hcode
      obtain ⟨hx, haccept, hreject⟩ := legalCode_cond.mp hcond
      obtain ⟨hta, htb, htd, hty, _⟩ := ht
      have hc := ihc hta (child hm (by simp [Expr.children])) hΓ hss hx
      have hb := iha htb (child hm (by simp [Expr.children])) hΓ haccept trivial
      have hd := ihr htd (child hm (by simp [Expr.children])) hΓ hreject trivial
      refine node rfl (by simp) ?_ (by simp [Expr.binding?])
        (by simpa [Expr.children] using ⟨hc, hb, hd⟩)
      rw [Expr.ty, Expr.note, ← hty]
      exact ExprAllowed.ty hb
  | @bind n b value body place σ σ₁ σ₂ ss₁ ss₂ _ _ ihv ihb =>
      obtain ⟨hdecl, hbody⟩ := legalCode_append.mp hcode
      obtain ⟨htv, htb, hty, htn⟩ := ht
      have hv := ihv ⟨htv, hty⟩ (child hm (by simp [Expr.children])) hΓ hdecl trivial
      have hbinder : TyAllowed v b.ty := hty ▸ ExprAllowed.ty hv
      have hb := ihb htb (child hm (by simp [Expr.children])) (fun id ty h => ?_) hbody trivial
      · refine node rfl (by simp) ?_ (by simpa [Expr.binding?] using hbinder)
          (by simpa [Expr.children] using ⟨hv, hb⟩)
        rw [Expr.ty, Expr.note, ← htn]
        exact ExprAllowed.ty hb
      · rcases lookup_cons_eq_some h with ⟨_, rfl⟩ | h
        · exact hbinder
        · exact hΓ id ty h
  | assignLocal _ _ _ ih => exact ih ht.1 hm hΓ (legalCode_declare.mp hcode).2.2 trivial
  | initLocal _ _ _ ih =>
      obtain ⟨hss, hdecl⟩ := legalCode_append.mp hcode
      exact ih ht.1 hm hΓ hss ((legalCode_declare.mp hdecl).2.1 _ rfl)

end Backward

end Lowering

end ShaderDialects
