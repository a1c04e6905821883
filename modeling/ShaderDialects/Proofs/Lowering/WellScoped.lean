import ShaderDialects.Builtin.Standard
import ShaderDialects.Proofs.Identifier.Interface
import ShaderDialects.Proofs.Lowering.Declared
import ShaderDialects.Proofs.Lowering.Shader
import ShaderDialects.Proofs.Lowering.Visibility
import ShaderDialects.Proofs.Source.FreeLocals

namespace ShaderDialects.Lowering

open Dialect (Decl Main OutputWrite Stmt Variable Visible)
open Identifier (Supply)

variable {V : Visible}

/-- A reference to a term of this form finds it. -/
def TermForm.Within (V : Visible) : TermForm → Prop
  | function name | value name | emulatedFunction name => V.Function name
  | emulatedConstant name => V.Constant name
  | native _ => True

structure Context.Within (V : Visible) (c : Context) : Prop where
  inputs : ∀ (i : Nat) (item : Item), c.interface.inputs[i]? = some item → item.ident ∈ V.names
  uniforms : ∀ q path u, c.uniform? q path = some u → u.ident ∈ V.names
  structs : ∀ i names, c.structs.lookup i = some names → V.Struct names.name
  terms : ∀ i form, c.terms.lookup i = some form → form.Within V

namespace Context.Within

variable {c : Context} (W : c.Within V) {L : List String}
include W

theorem withParams (params : List Variable) : c.Within (V.withParams params) where
  inputs i item h := List.mem_append_right _ (W.inputs i item h)
  uniforms q path u h := List.mem_append_right _ (W.uniforms q path u h)
  structs := W.structs
  terms i form h := by
    have hw := W.terms i form h
    cases form with
    | _ => exact hw

theorem declare {decls : List Decl} (hd : V.decls ⊆ decls) : c.Within { V with decls := decls } where
  inputs := W.inputs
  uniforms := W.uniforms
  structs i names h := by
    obtain ⟨d, hmem, hdecl⟩ := W.structs i names h
    exact ⟨d, hd hmem, hdecl⟩
  terms i form h := by
    have hw := W.terms i form h
    cases form with
    | native form => trivial
    | _ =>
        obtain ⟨d, hmem, hdecl⟩ := hw
        exact ⟨d, hd hmem, hdecl⟩

theorem struct {i : Nat} {names : StructNames} (hn : V.Struct names.name) :
    Context.Within V { c with structs := (i, names) :: c.structs } where
  inputs := W.inputs
  uniforms := W.uniforms
  structs j names' h := by
    rcases lookup_cons_eq_some h with ⟨-, rfl⟩ | h
    · exact hn
    · exact W.structs j names' h
  terms := W.terms

theorem term {i : Nat} {form : TermForm} (hw : form.Within V) :
    Context.Within V { c with terms := (i, form) :: c.terms } where
  inputs := W.inputs
  uniforms := W.uniforms
  structs := W.structs
  terms j form' h := by
    rcases lookup_cons_eq_some h with ⟨-, rfl⟩ | h
    · exact hw
    · exact W.terms j form' h

theorem ty {t : Ty} {ty : Dialect.Ty} (h : c.ty t = .ok ty) : ty.Scoped V := by
  cases t with
  | leaf t =>
      obtain rfl := Context.ty_leaf_eq_ok.mp h
      trivial
  | record i =>
      obtain ⟨names, hn, rfl⟩ := Context.ty_record_eq_ok.mp h
      exact W.structs i names hn

theorem tys {ι : Type} {ty : ι → Ty} {fs : List ι} {tys : List Dialect.Ty} (names : List String)
    (h : List.Forall₂ (fun f t => c.ty (ty f) = .ok t) fs tys) :
    ∀ x ∈ List.zipWith Variable.mk names tys, x.ty.Scoped V := by
  induction h generalizing names with
  | nil => simp
  | cons ht _ ih =>
      cases names with
      | nil => exact nofun
      | cons n names => exact List.forall_mem_cons.mpr ⟨W.ty ht, ih names⟩

theorem readTerm {i : Nat} {x : Dialect.Expr} (h : c.readTerm i = .ok x) : x.Scoped V L := by
  obtain ⟨form, hform, hx⟩ := Context.readTerm_eq_ok.mp h
  have hw := W.terms i form hform
  cases form with
  | value name =>
      obtain rfl := Option.some_inj.mp hx
      exact ⟨.inl hw, trivial⟩
  | emulatedConstant name =>
      obtain rfl := Option.some_inj.mp hx
      exact .inr (.inr hw)
  | native form =>
      cases form with
      | var name =>
          obtain rfl := Option.some_inj.mp hx
          trivial
      | _ => cases hx
  | _ => cases hx

theorem applyTerm {i : Nat} {args : List Dialect.Expr} {x : Dialect.Expr}
    (h : c.applyTerm i args = .ok x) (ha : ∀ a ∈ args, a.Scoped V L) : x.Scoped V L := by
  obtain ⟨form, hform, hx⟩ := Context.applyTerm_eq_ok.mp h
  have hw := W.terms i form hform
  have hall := Dialect.Expr.scopedAll_iff.mpr ha
  cases form with
  | function name | emulatedFunction name =>
      obtain rfl := Option.some_inj.mp hx
      exact ⟨.inl hw, hall⟩
  | native form =>
      cases form with
      | call name =>
          obtain rfl := Option.some_inj.mp hx
          exact hall
      | binary op =>
          obtain ⟨l, r, rfl, rfl⟩ := Form.build?_binary.mp hx
          exact ⟨ha l (by simp), ha r (by simp)⟩
      | unary op =>
          obtain ⟨operand, rfl, rfl⟩ := Form.build?_unary.mp hx
          exact ha operand (by simp)
      | var name => cases hx
  | _ => cases hx

theorem rebuildWithin {depth q : Nat} {path : List Nat} {t : Ty} {x : Dialect.Expr}
    (h : c.rebuildWithin depth q path t = .ok x) : x.Scoped V L := by
  refine Context.rebuildWithin_induct h ?_ ?_
  · exact fun path u hu => .inr (.inl (W.uniforms q path u hu))
  · intro i names args hn hargs
    exact ⟨.inr (W.structs i names hn), Dialect.Expr.scopedAll_iff.mpr hargs⟩

end Context.Within

/-- The locals with these ids stand for variables that are visible. -/
def Scope.Shows (V : Visible) (L : List String) (ids : List Nat) (σ : Scope) : Prop :=
  ∀ id ∈ ids, ∃ name, σ.locals.lookup id = some name ∧ (name ∈ L ∨ name ∈ V.names)

def Place.Within (L : List String) : Place → Prop
  | result => True
  | assign name => name ∈ L

theorem Place.Within.mono {place : Place} {L L' : List String} (h : place.Within L) (hl : L ⊆ L') :
    place.Within L' := by
  cases place with
  | result => trivial
  | assign name => exact hl h

theorem Place.Within.write {place : Place} {L : List String} (h : place.Within L)
    {x : Dialect.Expr} (hx : x.Scoped V L) : (place.write x).Scoped V L := by
  cases place with
  | result => exact hx
  | assign name => exact ⟨h, hx⟩

namespace Task

def free : Task → List Nat
  | value e _ | into e _ | declare _ e => e.free
  | values es _ => Expr.freeOf es

def Placed (L : List String) : Task → Prop
  | into _ place => place.Within L
  | _ => True

/-- What a task leaves behind is visible after its statements. -/
def Leaves (V : Visible) (L : List String) (σ : Scope) : Task → Prop
  | value _ x => x.Scoped V L
  | values _ xs => ∀ x ∈ xs, x.Scoped V L
  | into _ _ => True
  | declare b _ => σ.Shows V L [b.id]

end Task

namespace Scope.Shows

variable {σ σ' : Scope} {L L' : List String} {ids ids' : List Nat}

theorem mono (K : σ.Shows V L ids) (hl : L ⊆ L') : σ.Shows V L' ids := by
  intro id hid
  obtain ⟨name, hn, hv⟩ := K id hid
  exact ⟨name, hn, hv.imp_left fun h => hl h⟩

theorem append (K : σ.Shows V L ids) (K' : σ.Shows V L ids') : σ.Shows V L (ids ++ ids') := by
  intro id hid
  rcases List.mem_append.mp hid with hid | hid
  · exact K id hid
  · exact K' id hid

/-- Locals in scope keep their names, since none is bound again. -/
theorem lowers {c : Context} {task : Task} {ss : List Stmt} (K : σ.Shows V L ids)
    (h : Lowers c task σ ss σ') (hu : ∀ id ∈ task.binders, id ∉ ids) : σ'.Shows V L ids := by
  intro id hid
  rw [h.lookup_locals fun hb => hu id hb hid]
  exact K id hid

theorem bind {name : String} (h : name ∈ L) (σ : Scope) (id : Nat) :
    (σ.bind id name).Shows V L [id] := by
  intro id' hid'
  obtain rfl := List.mem_singleton.mp hid'
  exact ⟨name, Scope.lookup_bind_self σ id' name, .inl h⟩

end Scope.Shows

/-- The statements of a task see what they refer to, given that the locals in scope do. -/
theorem Lowers.scoped {c : Context} {task : Task} {σ σ' : Scope} {ss : List Stmt}
    (h : Lowers c task σ ss σ') (W : c.Within V) {L : List String} {ids : List Nat}
    (F : Fits ids task.free task.binders) (P : task.Placed L) (K : σ.Shows V L ids) :
    Stmt.ScopedAll V L ss ∧ task.Leaves V (Stmt.after L ss) σ' := by
  induction h generalizing L ids with
  | literal => exact ⟨trivial, trivial⟩
  | @bound n id name σ hl =>
      obtain ⟨name', hn, hv⟩ := K id (F.free id List.mem_cons_self)
      obtain rfl : name = name' := Option.some_inj.mp (hl.symm.trans hn)
      exact ⟨trivial, hv.imp_right .inl⟩
  | term ht => exact ⟨trivial, W.readTerm ht⟩
  | input hi => exact ⟨trivial, .inr (.inl (W.inputs _ _ hi))⟩
  | path _ hx => exact ⟨trivial, W.rebuildWithin hx⟩
  | apply _ hx ih =>
      rw [Task.binders, Expr.binders_apply] at F
      obtain ⟨hs, hxs⟩ := ih F trivial K
      exact ⟨hs, W.applyTerm hx hxs⟩
  | @construct n r fields xs names _ _ _ _ _ hn ih =>
      rw [Task.binders, Expr.binders_construct] at F
      obtain ⟨hs, hxs⟩ := ih F trivial K
      have hstruct := W.structs r names (Context.structNames_eq_ok.mp hn)
      exact ⟨hs, .inr hstruct, Dialect.Expr.scopedAll_iff.mpr hxs⟩
  | field _ _ _ ih =>
      rw [Task.binders, Expr.binders_field] at F
      exact ih F trivial K
  | swizzle _ ih =>
      rw [Task.binders, Expr.binders_swizzle] at F
      exact ih F trivial K
  | @hoistCond _ _ _ _ _ _ ss _ ht _ ih =>
      obtain ⟨hs, _⟩ := ih F List.mem_cons_self (K.mono (List.subset_cons_self _ L))
      refine ⟨⟨Stmt.scoped_declare_none.mpr (W.ty ht), hs⟩, .inl ?_⟩
      exact Stmt.subset_after ss List.mem_cons_self
  | hoistBind ht _ ih =>
      obtain ⟨hs, _⟩ := ih F List.mem_cons_self (K.mono (List.subset_cons_self _ L))
      exact ⟨⟨Stmt.scoped_declare_none.mpr (W.ty ht), hs, trivial⟩, .inl List.mem_cons_self⟩
  | nil => exact ⟨trivial, List.forall_mem_nil _⟩
  | @cons _ _ _ _ _ _ _ ss₁ ss₂ he _ ih ihs =>
      obtain ⟨hs, hx⟩ := ih F.left trivial K
      have K₁ := (K.lowers he F.left.unbound).mono (Stmt.subset_after ss₁)
      obtain ⟨hs', hxs⟩ := ihs F.right trivial K₁
      rw [Stmt.scopedAll_append, Stmt.after_append]
      exact ⟨⟨hs, hs'⟩, List.forall_mem_cons.mpr ⟨hx.mono (Stmt.subset_after ss₂), hxs⟩⟩
  | @write _ _ _ _ ss _ _ _ ih =>
      obtain ⟨hs, hx⟩ := ih F trivial K
      refine ⟨Stmt.scopedAll_append.mpr ⟨hs, ?_, trivial⟩, trivial⟩
      exact Place.Within.write (P.mono (Stmt.subset_after ss)) hx
  | @choose _ _ _ _ _ _ _ _ _ _ ss _ _ hc ha _ ih ih₁ ih₂ =>
      rw [Task.binders, Expr.binders_cond] at F
      obtain ⟨hs, hx⟩ := ih F.left.left trivial K
      have P' := Place.Within.mono P (Stmt.subset_after ss)
      have K₁ := (K.lowers hc F.left.left.unbound).mono (Stmt.subset_after ss)
      obtain ⟨hs₁, _⟩ := ih₁ F.left.right P' K₁
      -- the locals of the first branch are not visible in the second
      obtain ⟨hs₂, _⟩ := ih₂ F.right P' (K₁.lowers ha F.left.right.unbound)
      exact ⟨Stmt.scopedAll_append.mpr ⟨hs, ⟨hx, hs₁, hs₂⟩, trivial⟩, trivial⟩
  | @bind _ b value _ _ _ _ _ ss₁ _ hv _ ih ih₁ =>
      rw [Task.binders, Expr.binders_bind] at F
      have Fv : Fits ids value.free (b.id :: value.binders) := Fits.left F
      obtain ⟨hs, hb⟩ := ih Fv trivial K
      have K₁ := (K.lowers hv Fv.unbound).mono (Stmt.subset_after ss₁)
      obtain ⟨hs', _⟩ := ih₁ F.body (Place.Within.mono P (Stmt.subset_after ss₁)) (hb.append K₁)
      exact ⟨Stmt.scopedAll_append.mpr ⟨hs, hs'⟩, trivial⟩
  | @assignLocal b _ _ _ ss σ' _ ht _ ih =>
      have F' := F.part (List.Subset.refl _) (List.sublist_cons_self _ _)
      obtain ⟨hs, _⟩ := ih F' List.mem_cons_self (K.mono (List.subset_cons_self _ L))
      refine ⟨⟨Stmt.scoped_declare_none.mpr (W.ty ht), hs⟩, .bind ?_ σ' b.id⟩
      exact Stmt.subset_after ss List.mem_cons_self
  | @initLocal b _ _ _ _ _ σ' _ ht _ ih =>
      have F' := F.part (List.Subset.refl _) (List.sublist_cons_self _ _)
      obtain ⟨hs, hx⟩ := ih F' trivial K
      rw [Stmt.scopedAll_append, Stmt.after_append]
      refine ⟨⟨hs, ?_, trivial⟩, .bind List.mem_cons_self σ' b.id⟩
      exact Stmt.scoped_declare_some.mpr ⟨W.ty ht, hx⟩

section Body

variable {g : Setting} {c : Context} {σ σ' : Scope} {ss : List Stmt} {L : List String}
  {ids : List Nat}

/-- What is read and bound after the steps fits where they have bound their locals. -/
theorem LowersSteps.scoped {steps : List Step} {xs : List Dialect.Expr}
    (h : LowersSteps g c steps σ xs ss σ') (W : c.Within V) {rest later : List Nat}
    (F : Fits ids (Step.free rest steps) (steps.flatMap Step.binders ++ later))
    (K : σ.Shows V L ids) :
    Stmt.ScopedAll V L ss ∧ (∀ x ∈ xs, x.Scoped V (Stmt.after L ss)) ∧
      ∃ ids', Fits ids' rest later ∧ σ'.Shows V (Stmt.after L ss) ids' := by
  induction h generalizing L ids with
  | nil => exact ⟨trivial, nofun, ids, F, K⟩
  | @bind b value _ _ _ _ _ ss₁ _ hv _ ih =>
      rw [List.flatMap_cons, List.append_assoc] at F
      have Fv : Fits ids value.free (b.id :: value.binders) := Fits.left F
      obtain ⟨hs, hb⟩ := hv.scoped W Fv trivial K
      have K₁ := (K.lowers hv Fv.unbound).mono (Stmt.subset_after ss₁)
      obtain ⟨hs', hxs, hrest⟩ := ih (Fits.body F) (hb.append K₁)
      rw [Stmt.scopedAll_append, Stmt.after_append]
      exact ⟨⟨hs, hs'⟩, hxs, hrest⟩
  | @discard condition _ _ x _ _ _ _ ss₁ ss₂ _ hc _ ih =>
      rw [List.flatMap_cons, List.append_assoc] at F
      obtain ⟨hs, hx⟩ := hc.scoped W (Fits.left F) trivial K
      have K₁ := (K.lowers hc (Fits.left F).unbound).mono (Stmt.subset_after ss₁)
      obtain ⟨hs', hxs, hrest⟩ := ih (Fits.right F) K₁
      rw [Stmt.scopedAll_append, Stmt.after_append]
      -- a condition is evaluated after all steps, not where it stands
      exact ⟨⟨hs, hs'⟩, List.forall_mem_cons.mpr ⟨hx.mono (Stmt.subset_after ss₂), hxs⟩, hrest⟩

theorem LowersAssignments.scoped {as : List Assignment} {ws : List OutputWrite}
    (h : LowersAssignments g c as σ ws ss σ') (W : c.Within V)
    (F : Fits ids (as.flatMap fun a => a.value.free) (as.flatMap fun a => a.value.binders))
    (K : σ.Shows V L ids) :
    Stmt.ScopedAll V L ss ∧ ∀ o ∈ ws, o.value.Scoped V (Stmt.after L ss) := by
  induction h generalizing L with
  | nil => exact ⟨trivial, nofun⟩
  | @cons _ _ _ _ _ _ _ _ _ _ _ ss₁ ss₂ _ _ hv _ _ ih =>
      rw [List.flatMap_cons, List.flatMap_cons] at F
      obtain ⟨hs, hx⟩ := hv.scoped W F.left trivial K
      have K₁ := (K.lowers hv F.left.unbound).mono (Stmt.subset_after ss₁)
      obtain ⟨hs', hws⟩ := ih F.right K₁
      rw [Stmt.scopedAll_append, Stmt.after_append]
      exact ⟨⟨hs, hs'⟩, List.forall_mem_cons.mpr ⟨hx.mono (Stmt.subset_after ss₂), hws⟩⟩

theorem scoped_lowerMain {s : Progress} {main : Main} (h : g.lowerMain s = .ok main)
    (W : (g.context s).Within V) (hf : g.shader.free = []) (hn : g.shader.binders.Nodup) :
    main.Scoped V := by
  obtain ⟨ss₁, σ, ss₂, σ', hs, ha, hm⟩ := lowerMain_parts h
  have F : Fits [] g.shader.free g.shader.binders :=
    ⟨by simp [hf], hn, fun _ _ => List.not_mem_nil⟩
  have K : Scope.Shows V [] [] ⟨s.supply, []⟩ := nofun
  obtain ⟨hs₁, hxs, ids, F', K'⟩ := hs.scoped W F K
  obtain ⟨hs₂, hws⟩ := ha.scoped W F' K'
  constructor
  · rw [hm]
    exact Stmt.scopedAll_append.mpr ⟨hs₁, hs₂⟩
  · rw [hm, Stmt.after_append]
    exact fun x hx => (hxs x hx).mono (Stmt.subset_after ss₂)
  · rw [hm, Stmt.after_append]
    exact hws

end Body

def Setting.globals (g : Setting) : List String :=
  g.interface.inputs.map Item.ident ++ g.interface.uniforms.map BoundUniform.ident

/-- The declarations so far are known for what they are and, apart from emulations, scoped, each
among those before it. -/
structure Progress.Scoped (g : Setting) (s : Progress) : Prop where
  decls : ∀ (k : Nat) (d : Decl), s.decls[k]? = some d → d.origin.isEmulation = false →
    d.kind.Scoped ⟨g.globals, s.decls.take k⟩
  context : (g.context s).Within ⟨g.globals, s.decls⟩

section Declarations

variable {g : Setting} {s s' : Progress}

theorem Progress.Scoped.snoc (S : s.Scoped g) {d : Decl} (hd : s'.decls = s.decls ++ [d])
    (hk : d.origin.isEmulation = false → d.kind.Scoped ⟨g.globals, s.decls⟩)
    (hc : (g.context s').Within ⟨g.globals, s.decls ++ [d]⟩) : s'.Scoped g := by
  refine ⟨fun k d' h => ?_, hd ▸ hc⟩
  rw [hd] at h ⊢
  by_cases hlt : k < s.decls.length
  · rw [List.getElem?_append_left hlt] at h
    rw [List.take_append_of_le_length (Nat.le_of_lt hlt)]
    exact S.decls k d' h
  · -- the last one, before which stand all the others
    obtain ⟨rfl, rfl⟩ : k = s.decls.length ∧ d = d' := by
      have hk := (List.getElem?_eq_some_iff.mp h).1
      rw [List.length_append, List.length_singleton] at hk
      obtain rfl : k = s.decls.length := by omega
      exact ⟨rfl, by simpa using h⟩
    rw [List.take_left']
    · exact hk
    · rfl

theorem Progress.Scoped.later (S : s.Scoped g) (d : Decl) :
    (g.context s).Within ⟨g.globals, s.decls ++ [d]⟩ :=
  S.context.declare (List.subset_append_left s.decls [d])

theorem declareEmulation_scoped (S : s.Scoped g) (i : Nat) (t : Term) (symbol : String)
    (body : Emulation.Body) : (Setting.declareEmulation s i t symbol body).Scoped g := by
  cases body with
  | function params result body =>
      refine S.snoc rfl nofun ((S.later _).term ?_)
      exact ⟨_, List.mem_append_right _ (List.mem_singleton_self _), rfl, rfl⟩
  | constant leaf value =>
      refine S.snoc rfl nofun ((S.later _).term ?_)
      exact ⟨_, List.mem_append_right _ (List.mem_singleton_self _), rfl, rfl, rfl⟩

theorem Routine.form_within {k : TermKind} {r : Routine} (hr : ofKind? k = some r) {name : String}
    (h : V.Function name) : (r.form name).Within V := by
  cases k with
  | function params result body | value ty body =>
      cases hr
      exact h
  | external symbol signature => cases hr

theorem Routine.fits {k : TermKind} {r : Routine} (hr : ofKind? k = some r) (hf : k.free = [])
    (hn : k.binders.Nodup) : Fits (r.params.map Binding.id) r.body.free r.body.binders := by
  rw [binders hr] at hn
  obtain ⟨_, hbody, hne⟩ := List.nodup_append.mp hn
  refine ⟨fun id hid => ?_, hbody, fun id hid hp => hne id hp id hid rfl⟩
  cases k with
  | function params result body =>
      cases hr
      simpa using (List.filter_eq_nil_iff.mp hf) id hid
  | value ty body =>
      cases hr
      exact absurd hid (by simp [show body.free = [] from hf])
  | external symbol signature => cases hr

theorem shows_params {params : List Binding} (hn : (params.map Binding.id).Nodup) (σ : Scope)
    (h : (σ.bindParams params).1 ⊆ V.names) :
    (σ.bindParams params).2.Shows V [] (params.map Binding.id) := by
  intro id hid
  obtain ⟨k, hk⟩ := List.mem_iff_getElem?.mp hid
  obtain ⟨b, hb, rfl⟩ := by simpa using hk
  have hlen : (σ.bindParams params).1.length = params.length := by simp [Scope.bindParams_names]
  obtain ⟨name, hname⟩ : ∃ name, (σ.bindParams params).1[k]? = some name := by
    have hlt := (List.getElem?_eq_some_iff.mp hb).1
    exact ⟨_, List.getElem?_eq_getElem (hlen ▸ hlt)⟩
  exact ⟨name, Scope.lookup_bindParams hn hb hname, .inr (h (List.mem_of_getElem? hname))⟩

theorem Declares.scoped {d : DeclId} (h : Declares g s d s') (S : s.Scoped g)
    (hf : ∀ i t, d = .term i → g.program.terms[i]? = some t → t.kind.free = [])
    (hn : ∀ i t, d = .term i → g.program.terms[i]? = some t → t.kind.binders.Nodup) :
    s'.Scoped g := by
  cases h with
  | @record i r tys hr ht =>
      refine S.snoc rfl (fun _ => S.context.tys _ ht) ((S.later _).struct ?_)
      exact ⟨_, List.mem_append_right _ (List.mem_singleton_self _), rfl, rfl⟩
  | @routine i t r tys rt ss σ ht hr hp hres hb =>
      have hbinders := hn i t rfl ht
      have F := Routine.fits hr (hf i t rfl ht) hbinders
      rw [Routine.binders hr] at hbinders
      have hlen := (length_routineScope s t r).trans hp.length_eq
      have hvisible : (s.routineScope t r).1 ⊆ (Visible.withParams ⟨g.globals, s.decls⟩
          (List.zipWith Variable.mk (s.routineScope t r).1 tys)).names := by
        rw [Visible.withParams, map_name_zipWith hlen]
        exact List.subset_append_left _ _
      have K := shows_params (List.nodup_append.mp hbinders).1 _ hvisible
      obtain ⟨hbody, _⟩ := hb.scoped (S.context.withParams _) F trivial K
      refine S.snoc rfl (fun _ => ⟨S.context.tys _ hp, S.context.ty hres, hbody⟩)
        ((S.later _).term ?_)
      refine Routine.form_within hr ?_
      exact ⟨_, List.mem_append_right _ (List.mem_singleton_self _), rfl, rfl⟩
  | native => exact ⟨S.decls, S.context.term trivial⟩
  | @emulation i t symbol signature e =>
      exact declareEmulation_scoped S i t symbol (e.build signature)

theorem scoped_start (supply : Supply) : Progress.Scoped g ⟨supply, [], [], []⟩ where
  decls := nofun
  context := {
    inputs := fun i item h =>
      List.mem_append_left _ (List.mem_map_of_mem (List.mem_of_getElem? h))
    uniforms := fun q path u h => by
      obtain ⟨us, hus, hu⟩ := Option.bind_eq_some_iff.mp h
      have hmem : u ∈ g.interface.uniforms :=
        List.mem_flatten.mpr ⟨us, List.mem_of_getElem? hus, List.mem_of_find?_eq_some hu⟩
      exact List.mem_append_right _ (List.mem_map_of_mem hmem)
    structs := nofun
    terms := nofun }

theorem scoped_of_declareAll {supply : Supply} {closure : Closure}
    (h : g.declareAll supply closure = .ok s)
    (hf : closure.AllTerms g.program fun t => t.kind.free = [])
    (hn : closure.AllTerms g.program fun t => t.kind.binders.Nodup) : s.Scoped g := by
  refine declareAll_induct (motive := fun _ s => s.Scoped g) h (scoped_start supply) ?_
  intro pre d post s s' ho S hd
  have hmem : d ∈ closure.order := by simp [ho]
  refine hd.scoped S ?_ ?_
  · rintro i t rfl
    exact hf i t hmem
  · rintro i t rfl
    exact hn i t hmem

/-- What is declared for an emulation is its body, built for the external that it stands for. -/
theorem emulation_of_declareAll {supply : Supply} {closure : Closure}
    (h : g.declareAll supply closure = .ok s) {d : Decl} (hd : d ∈ s.decls)
    (ho : d.origin.isEmulation = true) :
    ∃ symbol signature e,
      g.table.resolve symbol signature.kind g.version g.shader.stage = .ok (.emulated e) ∧
        d.kind = (e.build signature).kind := by
  obtain ⟨parts, hparts, hdecls⟩ := represents_of_declareAll h
  rw [hdecls, List.mem_filterMap] at hd
  obtain ⟨part, hpart, rfl⟩ := hd
  obtain ⟨k, hk⟩ := List.mem_iff_getElem?.mp hpart
  obtain ⟨id, -, hid⟩ := hparts.getElem?_left hk
  cases hid with
  | emulation _ _ hres => exact ⟨_, _, _, hres, rfl⟩
  | _ => cases ho

theorem scoped_of_closed {body : Emulation.Body} (h : body.Closed) (V : Visible) :
    body.kind.Scoped V := by
  cases body with
  | function params result body =>
      refine ⟨fun q hq => ?_, trivial, Dialect.Stmt.Closed.scoped h fun n hn => .inr ?_⟩
      · obtain ⟨_, _, rfl⟩ := List.mem_map.mp hq
        trivial
      · obtain ⟨q, hq, rfl⟩ := List.mem_map.mp hn
        refine List.mem_append_left _ ?_
        exact List.mem_map.mpr ⟨_, List.mem_map_of_mem hq, rfl⟩
  | constant leaf value => exact ⟨trivial, Dialect.Expr.Closed.scoped h nofun⟩

end Declarations

/-- If the source reads no local outside of what binds it, and binds no id twice in one term or
shader, then all that the records, the user terms and the entry point of a lowered shader refer to
is declared where it can be seen. The emulations of the standard table refer to nothing. -/
theorem lower_wellScoped {p : Program} {s : Shader} {closure : Closure} {v : Version}
    {table : Table} {d : Dialect.Shader} (hf : BoundLocals p s closure)
    (hu : UniqueBinders p s closure) (hd : lower p s closure v table = .ok d) :
    (∀ (k : Nat) (decl : Decl), d.decls[k]? = some decl → decl.origin.isEmulation = false →
      decl.kind.Scoped ⟨d.globals, d.decls.take k⟩) ∧
    d.main.Scoped ⟨d.globals, d.decls⟩ ∧ (table = .standard → d.WellScoped) := by
  obtain ⟨i, supply, hi, progress, hp, hm, P, -, -, hdecls⟩ := lower_eq_ok.mp hd
  have S := scoped_of_declareAll hp hf.terms hu.terms
  have hglobals : d.globals = Setting.globals ⟨p, s, v, table, i⟩ := by
    have hin := inputVars_names P.inputs (Interface.assigned_of_assign hi).inputs
    rw [Dialect.Shader.globals, hin, P.uniform_names, Setting.globals]
  have hmain := scoped_lowerMain hm S.context hf.shader hu.shader
  rw [← hglobals, ← hdecls] at hmain
  have huser := S.decls
  rw [← hglobals, ← hdecls] at huser
  refine ⟨huser, hmain, ?_⟩
  rintro rfl
  have hemulation {decl : Decl} (hmem : decl ∈ d.decls) (ho : decl.origin.isEmulation = true)
      (V : Visible) : decl.kind.Scoped V := by
    obtain ⟨symbol, signature, e, hres, hk⟩ := emulation_of_declareAll hp (hdecls ▸ hmem) ho
    have hlisted := (Table.suits_of_standard_resolve hres).1
    exact hk ▸ scoped_of_closed (Emulation.closed_build hlisted signature) V
  refine ⟨fun k decl hk => ?_, fun decl hmem ho => hemulation hmem ho _, hmain⟩
  cases ho : decl.origin.isEmulation with
  | false => exact huser k decl hk ho
  | true => exact hemulation (List.mem_of_getElem? hk) ho _

namespace Nested

/-! A let inside an argument, a conditional as the value of a let, and a constant that is
emulated. -/

abbrev float : Ty := .leaf .float

def less (a b : Expr) : Expr := .apply ⟨.leaf .bool, {}⟩ 1 [a, b]

def level : Expr := .field ⟨float, {}⟩ (.bound ⟨.record 0, {}⟩ 0) 0

def program : Program where
  records := [⟨"light", [⟨"level", float⟩], {}⟩]
  terms := [
    ⟨"pi", .external "pi" (.value .float), {}⟩,
    ⟨"less", .external "lt" (.function [.float, .float] .bool), {}⟩,
    ⟨"curve", .external "tanh" (.function [.float] .float), {}⟩,
    ⟨"dim", .function [⟨0, "light", .record 0⟩] float
      (.bind ⟨float, {}⟩ ⟨1, "dimmed", float⟩
        (.cond ⟨float, {}⟩ (less level (.term ⟨float, {}⟩ 0))
          (.apply ⟨float, {}⟩ 2 [level]) level)
        (.bound ⟨float, {}⟩ 1)), {}⟩]

def shader : Shader where
  name := "nested"
  stage := .fragment
  inputs := [⟨"shade", float, {}⟩]
  outputs := [⟨⟨"color", float, {}⟩, .attachment 0⟩]
  steps := [
    .bind ⟨0, "light", float⟩ (.apply ⟨float, {}⟩ 3 [.construct ⟨.record 0, {}⟩ 0
      [.bind ⟨float, {}⟩ ⟨1, "shade", float⟩ (.input ⟨float, {}⟩ 0) (.bound ⟨float, {}⟩ 1)]]),
    .discard (less (.bound ⟨float, {}⟩ 0) (.term ⟨float, {}⟩ 0)) {}]
  assignments := [⟨0, .bound ⟨float, {}⟩ 0⟩]

def closure : Closure := .placed [.record 0, .term 0, .term 1, .term 2, .term 3]

end Nested

open Nested in
theorem lower_wellScoped_nested :
    Closure.ofOrder program closure.order = .ok closure ∧ BoundLocals program shader closure ∧
      UniqueBinders program shader closure ∧
      ∃ d, lower program shader closure (.full .v110) .standard = .ok d ∧ d.WellScoped := by
  have hf : BoundLocals program shader closure := by decide
  have hu : UniqueBinders program shader closure := by decide
  obtain ⟨d, hd⟩ : ∃ d, lower program shader closure (.full .v110) .standard = .ok d :=
    Except.exists_eq_ok_of_isOk (by decide +kernel)
  exact ⟨rfl, hf, hu, d, hd, (lower_wellScoped hf hu hd).2.2 rfl⟩

end ShaderDialects.Lowering
