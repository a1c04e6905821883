import ShaderDialects.Proofs.Dialect.Path
import ShaderDialects.Proofs.Lowering.Identifiers
import ShaderDialects.Proofs.Lowering.WellScoped

namespace ShaderDialects.Lowering

open Dialect (Decl DeclKind Disciplined Event Main OutputWrite Path ReturnFree Returns Settles Stmt
  Variable Visible returnFree_nil)
open Identifier (Supply)

def Context.Readable (c : Context) (n : String) : Prop :=
  (∃ item ∈ c.interface.inputs, item.ident = n) ∨ (∃ u ∈ c.interface.uniforms, u.ident = n) ∨
    ∃ i, c.terms.lookup i = some (.emulatedConstant n)

def Readable (c : Context) (σ : Scope) (n : String) : Prop :=
  c.Readable n ∨ n ∈ σ.locals.map Prod.snd

def Task.Reads (n : String) : Task → Prop
  | value _ x => x.Uses n
  | values _ xs => ∃ x ∈ xs, x.Uses n
  | _ => False

section Reads

variable {c : Context} {n : String} {x : Dialect.Expr}

open Dialect.Expr (uses_iff uses_var)

theorem uses_user {f : String} {args : List Dialect.Expr} :
    (Dialect.Expr.user f args).Uses n ↔ ∃ x ∈ args, x.Uses n := by
  rw [uses_iff]
  exact or_iff_right nofun

theorem Context.Readable.of_uniform {q : Nat} {path : List Nat} {u : BoundUniform}
    (h : c.uniform? q path = some u) : c.Readable u.ident := by
  obtain ⟨us, hus, hu⟩ := Option.bind_eq_some_iff.mp h
  have hmem : u ∈ c.interface.uniforms :=
    List.mem_flatten.mpr ⟨us, List.mem_of_getElem? hus, List.mem_of_find?_eq_some hu⟩
  exact .inr (.inl ⟨u, hmem, rfl⟩)

theorem readable_of_rebuildWithin {depth q : Nat} {path : List Nat} {ty : Ty}
    (h : c.rebuildWithin depth q path ty = .ok x) (hn : x.Uses n) : c.Readable n := by
  refine Context.rebuildWithin_induct (P := fun x => x.Uses n → c.Readable n) h ?_ ?_ hn
  · intro path u hu hn
    exact uses_var.mp hn ▸ .of_uniform hu
  · intro i names args _ hargs hn
    obtain ⟨y, hy, hr⟩ := uses_user.mp hn
    exact hargs y hy hr

theorem readable_of_readTerm {t : Nat} (h : c.readTerm t = .ok x) (hn : x.Uses n) :
    c.Readable n := by
  obtain ⟨form, hform, hx⟩ := Context.readTerm_eq_ok.mp h
  cases form with
  | value name =>
      cases hx
      obtain ⟨_, hmem, _⟩ := uses_user.mp hn
      exact absurd hmem List.not_mem_nil
  | emulatedConstant name =>
      cases hx
      exact .inr (.inr ⟨t, uses_var.mp hn ▸ hform⟩)
  | native form =>
      cases form with
      | var name =>
          cases hx
          simp [Dialect.Expr.Uses, Dialect.Expr.nodes] at hn
      | _ => cases hx
  | _ => cases hx

theorem reads_of_applyTerm {f : Nat} {args : List Dialect.Expr} (h : c.applyTerm f args = .ok x)
    (hn : x.Uses n) : ∃ a ∈ args, a.Uses n := by
  obtain ⟨form, hform, hx⟩ := Context.applyTerm_eq_ok.mp h
  have hvar : x ≠ .var n ∧ x.children = args := by
    cases form with
    | function name | emulatedFunction name =>
        cases hx
        exact ⟨nofun, rfl⟩
    | native form =>
        cases form with
        | call name =>
            cases hx
            exact ⟨nofun, rfl⟩
        | binary op =>
            obtain ⟨l, r, rfl, rfl⟩ := Form.build?_binary.mp hx
            exact ⟨nofun, rfl⟩
        | unary op =>
            obtain ⟨operand, rfl, rfl⟩ := Form.build?_unary.mp hx
            exact ⟨nofun, rfl⟩
        | var name => cases hx
    | _ => cases hx
  obtain ⟨hne, rfl⟩ := hvar
  exact (uses_iff.mp hn).resolve_left hne

end Reads

section Expressions

variable {c : Context} {task : Task} {σ σ' : Scope} {ss : List Stmt} {n : String}

theorem Readable.of_locals {names : List String} (hn : Readable c σ' n)
    (h : n ∈ σ'.locals.map Prod.snd → Readable c σ n ∨ n ∈ names) : Readable c σ n ∨ n ∈ names :=
  hn.elim (fun hc => .inl (.inl hc)) h

theorem Lowers.readable (h : Lowers c task σ ss σ')
    (hn : task.Reads n ∨ n ∈ σ'.locals.map Prod.snd) :
    Readable c σ n ∨ n ∈ Stmt.localNamesOf ss := by
  induction h with
  | literal =>
      rcases hn with hn | hn
      · simp [Task.Reads, Dialect.Expr.Uses, Dialect.Expr.nodes] at hn
      · exact .inl (.inr hn)
  | @bound _ id name σ hl =>
      rcases hn with hn | hn
      · obtain rfl := Dialect.Expr.uses_var.mp hn
        obtain ⟨before, after, hσ, -⟩ := List.lookup_eq_some_iff.mp hl
        exact .inl (.inr (by simp [hσ]))
      · exact .inl (.inr hn)
  | term hx => exact .inl (hn.imp_left (readable_of_readTerm hx))
  | input hi =>
      refine .inl (hn.imp_left fun hn => .inl ⟨_, List.mem_of_getElem? hi, ?_⟩)
      exact Dialect.Expr.uses_var.mp hn
  | path _ hx => exact .inl (hn.imp_left (readable_of_rebuildWithin hx))
  | apply _ hx ih => exact ih (hn.imp_left (reads_of_applyTerm hx))
  | construct _ _ _ ih => exact ih (hn.imp_left uses_user.mp)
  | field _ _ _ ih | swizzle _ ih =>
      refine ih (hn.imp_left fun hn => ?_)
      simpa [Task.Reads, Dialect.Expr.Uses, Dialect.Expr.nodes] using hn
  | hoistCond _ _ ih =>
      rcases hn with hn | hn
      · exact .inr (List.mem_cons.mpr (.inl (Dialect.Expr.uses_var.mp hn).symm))
      · exact (ih (.inr hn)).imp_right (List.mem_cons_of_mem _)
  | hoistBind _ _ ih =>
      rcases hn with hn | hn
      · exact .inr (List.mem_cons.mpr (.inl (Dialect.Expr.uses_var.mp hn).symm))
      · refine (ih (.inr hn)).imp_right fun h => List.mem_cons_of_mem _ ?_
        exact List.mem_append_left (Stmt.localNamesOf []) h
  | nil =>
      rcases hn with ⟨_, hmem, _⟩ | hn
      · exact absurd hmem List.not_mem_nil
      · exact .inl (.inr hn)
  | cons _ _ ih ihs =>
      rw [Stmt.localNamesOf_append, List.mem_append, ← or_assoc]
      rcases hn with ⟨y, hy, hr⟩ | hn
      · rcases List.mem_cons.mp hy with rfl | hy
        · exact .inl (ih (.inl hr))
        · exact (ihs (.inl ⟨y, hy, hr⟩)).imp_left fun h => h.of_locals fun h => ih (.inr h)
      · exact (ihs (.inr hn)).imp_left fun h => h.of_locals fun h => ih (.inr h)
  | @write _ x place _ _ _ _ _ ih =>
      rw [Stmt.localNamesOf_append, List.mem_append, ← or_assoc]
      exact .inl (ih (hn.imp_left False.elim))
  | choose _ _ _ ih ih₁ ih₂ =>
      rw [Stmt.localNamesOf_append, List.mem_append, ← or_assoc]
      rcases ih₂ (hn.imp_left False.elim) with h | h
      · rcases h.of_locals fun h => ih₁ (.inr h) with h | h
        · exact .inl (h.of_locals fun h => ih (.inr h))
        · exact .inr (by simp [Stmt.localNamesOf, Stmt.localNames, h])
      · exact .inr (by simp [Stmt.localNamesOf, Stmt.localNames, h])
  | bind _ _ ih ih₁ =>
      rw [Stmt.localNamesOf_append, List.mem_append, ← or_assoc]
      refine (ih₁ hn).imp_left fun h => h.of_locals fun h => ih (.inr h)
  | assignLocal _ _ _ ih =>
      rcases hn with hn | hn
      · exact hn.elim
      · rcases List.mem_cons.mp hn with rfl | hn
        · exact .inr List.mem_cons_self
        · exact (ih (.inr hn)).imp_right (List.mem_cons_of_mem _)
  | initLocal _ _ _ ih =>
      rw [Stmt.localNamesOf_append, List.mem_append]
      rcases hn with hn | hn
      · exact hn.elim
      · rcases List.mem_cons.mp hn with rfl | hn
        · exact .inr (.inr List.mem_cons_self)
        · exact (ih (.inr hn)).imp_right .inl

/-- Whatever can be read has its name from the supply. -/
def Known (c : Context) (σ : Scope) : Prop := ∀ n, Readable c σ n → σ.supply.Knows n

/-- Locals that have their names already, and do not stand for anything that is read. -/
def Waiting (c : Context) (σ : Scope) (P : List String) : Prop :=
  ∀ n ∈ P, σ.supply.Knows n ∧ ¬ Readable c σ n

theorem Known.fresh (K : Known c σ) (label : String) : Known c (σ.fresh label).2 :=
  fun n hn => (K n hn).fresh label

theorem Known.temporary (K : Known c σ) : Known c σ.temporary.2 := fun n hn => (K n hn).temporary

theorem Known.lowers (K : Known c σ) (h : Lowers c task σ ss σ') : Known c σ' := by
  intro n hn
  rcases hn.of_locals fun hn => h.readable (.inr hn) with hn | hn
  · exact h.knows (K n hn)
  · exact h.gives.known n hn

variable {P : List String}

namespace Waiting

theorem fresh (H : Waiting c σ P) (label : String) : Waiting c (σ.fresh label).2 P :=
  fun n hn => ⟨(H n hn).1.fresh label, (H n hn).2⟩

theorem cons_fresh (H : Waiting c σ P) (K : Known c σ) (label : String) :
    Waiting c (σ.fresh label).2 ((σ.fresh label).1 :: P) :=
  List.forall_mem_cons.mpr
    ⟨⟨Supply.knows_fresh label, fun hn => Supply.not_knows_fresh label (K _ hn)⟩,
    H.fresh label⟩

theorem cons_temporary (H : Waiting c σ P) (K : Known c σ) :
    Waiting c σ.temporary.2 (σ.temporary.1 :: P) :=
  List.forall_mem_cons.mpr ⟨⟨Supply.knows_temporary, fun hn => Supply.not_knows_temporary (K _ hn)⟩,
    fun n hn => ⟨(H n hn).1.temporary, (H n hn).2⟩⟩

/-- What waits stays unread, since what is lowered names its locals anew. -/
theorem unread (H : Waiting c σ P) (h : Lowers c task σ ss σ') (hn : n ∈ P) :
    ¬ (task.Reads n ∨ n ∈ σ'.locals.map Prod.snd) := by
  intro hr
  rcases h.readable hr with hr | hr
  · exact (H n hn).2 hr
  · exact h.gives.new n hr (H n hn).1

theorem lowers (H : Waiting c σ P) (h : Lowers c task σ ss σ') : Waiting c σ' P := by
  intro n hn
  refine ⟨h.knows (H n hn).1, fun hr => ?_⟩
  rcases hr with hr | hr
  · exact (H n hn).2 (.inl hr)
  · exact H.unread h hn (.inr hr)

end Waiting

def Place.names : Place → List String
  | result => []
  | assign name => [name]

def Task.names : Task → List String
  | into _ place => place.names
  | _ => []

theorem Place.settles_write (place : Place) {x : Dialect.Expr} {es : List Event}
    (hp : Path [place.write x] es) (hx : ∀ n ∈ place.names ++ P, ¬ x.Uses n) :
    Settles (place.names ++ P) es P := by
  cases place with
  | result =>
      cases hp with
      | «return» hp =>
          cases hp
          exact .read rfl rfl (fun n hn hr => hx n hn (Event.reads_return.mp hr)) .nil
  | assign name =>
      cases hp with
      | assign hp =>
          cases hp
          exact .assign hx .nil

/-- On every path the place of a task gets its value, and so do the locals of its statements; none
that waits is read before. -/
theorem Lowers.settles (h : Lowers c task σ ss σ') (K : Known c σ)
    (H : Waiting c σ (task.names ++ P)) {es : List Event} (hp : Path ss es) :
    Settles (task.names ++ P) es P := by
  induction h generalizing P es with
  | literal | bound | term | input | path | nil =>
      cases hp
      exact .nil
  | apply _ _ ih | construct _ _ _ ih | field _ _ _ ih | swizzle _ ih => exact ih K H hp
  | hoistCond _ _ ih =>
      cases hp with
      | declare hp => exact .bare (ih K.temporary (H.cons_temporary K) hp)
  | hoistBind _ _ ih =>
      cases hp with
      | declare hp =>
          cases hp with
          | block hb hp =>
              cases hp
              rw [List.append_nil]
              exact .bare (ih K.temporary (H.cons_temporary K) hb)
  | cons he _ ih ihs =>
      obtain ⟨es₁, es₂, rfl, h₁, h₂⟩ := hp.split
      exact (ih K H h₁).append (ihs (K.lowers he) (H.lowers he) h₂)
  | @write _ _ place _ _ _ _ he ih =>
      obtain ⟨es₁, es₂, rfl, h₁, h₂⟩ := hp.split
      have hx : ∀ n ∈ place.names ++ P, _ := fun n hn hr => H.unread he hn (.inl hr)
      exact (ih K H h₁).append (place.settles_write h₂ hx)
  | @choose _ _ _ _ x place _ _ _ _ _ _ _ hc ha _ ih ih₁ ih₂ =>
      obtain ⟨es₁, es₂, rfl, h₁, h₂⟩ := hp.split
      have hread (es : List Event) (h : Settles (place.names ++ P) es P) :
          Settles (place.names ++ P) (.eval x :: (es ++ [])) P := by
        rw [List.append_nil]
        exact .read rfl rfl (fun n hn hr => H.unread hc hn (.inl (Event.reads_eval.mp hr))) h
      refine Settles.append (ih K H h₁) ?_
      have K₁ := K.lowers hc
      have H₁ := H.lowers hc
      cases h₂ with
      | accept hb hnil =>
          cases hnil
          exact hread _ (ih₁ K₁ H₁ hb)
      | reject hb hnil =>
          cases hnil
          exact hread _ (ih₂ (K₁.lowers ha) (H₁.lowers ha) hb)
  | bind hv _ ih ih₁ =>
      obtain ⟨es₁, es₂, rfl, h₁, h₂⟩ := hp.split
      exact Settles.append (ih K H h₁) (ih₁ (K.lowers hv) (H.lowers hv) h₂)
  | @assignLocal b _ _ _ _ _ _ _ _ ih =>
      cases hp with
      | declare hp => exact .bare (ih (K.fresh b.name) (H.cons_fresh K b.name) hp)
  | @initLocal b _ _ _ _ _ _ _ _ hv ih =>
      obtain ⟨es₁, es₂, rfl, h₁, h₂⟩ := hp.split
      refine (ih (K.fresh b.name) (H.fresh b.name) h₁).append ?_
      cases h₂ with
      | declare hnil =>
          cases hnil
          refine .read rfl rfl (fun n hn hr => ?_) .nil
          exact (H.fresh b.name).unread hv hn (.inl (Event.reads_init.mp hr))

def Place.Ends (es : List Event) : Place → Prop
  | result => Returns es
  | assign _ => ReturnFree es

theorem Place.Ends.append {place : Place} {es es' : List Event} (h : ReturnFree es)
    (h' : place.Ends es') : place.Ends (es ++ es') := by
  cases place with
  | result => exact h.append_returns h'
  | assign name => exact ReturnFree.append h h'

def Task.Ends (es : List Event) : Task → Prop
  | into _ place => place.Ends es
  | _ => ReturnFree es

/-- Only where the value of an expression is the result of a function something is returned, on
every path and at its end. -/
theorem Lowers.ends (h : Lowers c task σ ss σ') {es : List Event} (hp : Path ss es) :
    task.Ends es := by
  induction h generalizing es with
  | literal | bound | term | input | path | nil =>
      cases hp
      exact returnFree_nil
  | apply _ _ ih | construct _ _ _ ih | field _ _ _ ih | swizzle _ ih => exact ih hp
  | hoistCond _ _ ih =>
      cases hp with
      | declare hp => exact .cons nofun (ih hp)
  | hoistBind _ _ ih =>
      cases hp with
      | declare hp =>
          cases hp with
          | block hb hp =>
              cases hp
              rw [List.append_nil]
              exact .cons nofun (ih hb)
  | cons he _ ih ihs =>
      obtain ⟨es₁, es₂, rfl, h₁, h₂⟩ := hp.split
      exact ReturnFree.append (ih h₁) (ihs h₂)
  | @write _ x place _ _ _ _ he ih =>
      obtain ⟨es₁, es₂, rfl, h₁, h₂⟩ := hp.split
      refine Place.Ends.append (ih h₁) ?_
      cases place with
      | result =>
          cases h₂ with
          | «return» hnil =>
              cases hnil
              exact ⟨[], x, rfl, returnFree_nil⟩
      | assign name =>
          cases h₂ with
          | assign hnil =>
              cases hnil
              exact returnFree_nil.cons nofun
  | @choose _ _ b _ x place _ _ _ _ _ _ _ hc ha _ ih ih₁ ih₂ =>
      obtain ⟨es₁, es₂, rfl, h₁, h₂⟩ := hp.split
      have htest : ReturnFree [.eval x] := returnFree_nil.cons nofun
      refine Place.Ends.append (ih h₁) ?_
      cases h₂ with
      | accept hb hnil =>
          cases hnil
          rw [List.append_nil]
          exact Place.Ends.append htest (ih₁ hb)
      | reject hb hnil =>
          cases hnil
          rw [List.append_nil]
          exact Place.Ends.append htest (ih₂ hb)
  | bind hv _ ih ih₁ =>
      obtain ⟨es₁, es₂, rfl, h₁, h₂⟩ := hp.split
      exact Place.Ends.append (ih h₁) (ih₁ h₂)
  | assignLocal _ _ _ ih =>
      cases hp with
      | declare hp => exact .cons nofun (ih hp)
  | initLocal _ _ _ ih =>
      obtain ⟨es₁, es₂, rfl, h₁, h₂⟩ := hp.split
      refine ReturnFree.append (ih h₁) ?_
      cases h₂ with
      | declare hnil =>
          cases hnil
          exact returnFree_nil.cons nofun

end Expressions

section Body

variable {g : Setting} {c : Context} {σ σ' : Scope} {ss : List Stmt}

/-- Every path through the statements goes on after them, with nothing left to wait. -/
def Goes (ss : List Stmt) : Prop := ∀ es, Path ss es → Settles [] es [] ∧ ReturnFree es

theorem goes_nil : Goes [] := by
  intro es hp
  cases hp
  exact ⟨.nil, returnFree_nil⟩

theorem Goes.append {ss' : List Stmt} (h : Goes ss) (h' : Goes ss') : Goes (ss ++ ss') := by
  intro es hp
  obtain ⟨es₁, es₂, rfl, h₁, h₂⟩ := hp.split
  exact ⟨(h es₁ h₁).1.append (h' es₂ h₂).1, (h es₁ h₁).2.append (h' es₂ h₂).2⟩

theorem Lowers.goes {task : Task} (h : Lowers c task σ ss σ') (K : Known c σ)
    (ht : ∀ e place, task ≠ .into e place) : Goes ss := by
  intro es hp
  have H : Waiting c σ [] := nofun
  cases task with
  | into e place => exact absurd rfl (ht e place)
  | _ => exact ⟨h.settles K H hp, h.ends hp⟩

theorem LowersSteps.goes {steps : List Step} {xs : List Dialect.Expr}
    (h : LowersSteps g c steps σ xs ss σ') (K : Known c σ) : Goes ss ∧ Known c σ' := by
  induction h with
  | nil => exact ⟨goes_nil, K⟩
  | bind hv _ ih =>
      obtain ⟨hss, K'⟩ := ih (K.lowers hv)
      exact ⟨(hv.goes K nofun).append hss, K'⟩
  | discard _ hc _ ih =>
      obtain ⟨hss, K'⟩ := ih (K.lowers hc)
      exact ⟨(hc.goes K nofun).append hss, K'⟩

theorem LowersAssignments.goes {as : List Assignment} {ws : List OutputWrite}
    (h : LowersAssignments g c as σ ws ss σ') (K : Known c σ) : Goes ss := by
  induction h with
  | nil => exact goes_nil
  | cons _ _ hv _ _ ih => exact (hv.goes K nofun).append (ih (K.lowers hv))

end Body

/-- A function, unless it is an emulation, gives a result on every path and leaves none of its
locals to wait. -/
def Complete (d : Decl) : Prop :=
  d.origin.isEmulation = false → ∀ params result body, d.kind = .function params result body →
    ∀ es, Path body es → Returns es ∧ Settles [] es []

structure Progress.Complete (g : Setting) (s : Progress) : Prop where
  known : ∀ n, (g.context s).Readable n → s.supply.Knows n
  decls : ∀ d ∈ s.decls, Lowering.Complete d

section Declarations

variable {g : Setting} {s s' : Progress}

namespace Progress.Complete

theorem known_of (C : s.Complete g) (hs : ∀ n, s.supply.Knows n → s'.supply.Knows n)
    (hr : ∀ i n, s'.terms.lookup i = some (.emulatedConstant n) →
      s.terms.lookup i = some (.emulatedConstant n) ∨ s'.supply.Knows n) :
    ∀ n, (g.context s').Readable n → s'.supply.Knows n := by
  rintro n (h | h | ⟨i, h⟩)
  · exact hs n (C.known n (.inl h))
  · exact hs n (C.known n (.inr (.inl h)))
  · exact (hr i n h).elim (fun h => hs n (C.known n (.inr (.inr ⟨i, h⟩)))) id

theorem snoc (C : s.Complete g) {d : Decl} (hd : s'.decls = s.decls ++ [d])
    (hc : Lowering.Complete d) (hs : ∀ n, s.supply.Knows n → s'.supply.Knows n)
    (hr : ∀ i n, s'.terms.lookup i = some (.emulatedConstant n) →
      s.terms.lookup i = some (.emulatedConstant n) ∨ s'.supply.Knows n) : s'.Complete g := by
  refine ⟨C.known_of hs hr, ?_⟩
  rw [hd, List.forall_mem_append, List.forall_mem_singleton]
  exact ⟨C.decls, hc⟩

end Progress.Complete

theorem Scope.readable_bindParams {c : Context} {σ : Scope} {bs : List Binding} {n : String}
    (h : Readable c (σ.bindParams bs).2 n) : Readable c σ n ∨ n ∈ (σ.bindParams bs).1 := by
  induction bs generalizing σ with
  | nil => exact .inl h
  | cons b bs ih =>
      rcases ih h with (h | h) | h
      · exact .inl (.inl h)
      · rcases List.mem_cons.mp h with rfl | h
        · exact .inr List.mem_cons_self
        · exact .inl (.inr h)
      · exact .inr (List.mem_cons_of_mem _ h)

theorem Progress.Complete.known_routineScope (C : s.Complete g) (t : Term) (r : Routine) :
    Known (g.context s) (s.routineScope t r).2 := by
  have hgives := gives_routineScope s t r
  intro n hn
  rcases Scope.readable_bindParams hn with (hn | hn) | hn
  · exact hgives.knows ((C.known n hn).fresh t.name)
  · exact absurd hn List.not_mem_nil
  · exact hgives.known n hn

theorem declareEmulation_complete (C : s.Complete g) (i : Nat) (t : Term) (symbol : String)
    (body : Emulation.Body) : (Setting.declareEmulation s i t symbol body).Complete g := by
  cases body with
  | function params result body =>
      refine C.snoc rfl nofun (fun n hn => hn.fresh _) fun j n h => .inl ?_
      rcases lookup_cons_eq_some h with ⟨-, h⟩ | h
      · cases h
      · exact h
  | constant leaf value =>
      refine C.snoc rfl nofun (fun n hn => hn.fresh _) fun j n h => ?_
      rcases lookup_cons_eq_some h with ⟨-, h⟩ | h
      · cases h
        exact .inr (Supply.knows_fresh _)
      · exact .inl h

theorem Routine.form_ne {k : TermKind} {r : Routine} (hr : ofKind? k = some r)
    {name n : String} : r.form name ≠ .emulatedConstant n := by
  cases k with
  | function params result body | value ty body =>
      cases hr
      exact nofun
  | external symbol signature => cases hr

theorem Declares.complete {d : DeclId} (h : Declares g s d s') (C : s.Complete g) :
    s'.Complete g := by
  cases h with
  | record => exact C.snoc rfl nofun (fun n hn => hn.fresh _) fun _ _ h => .inl h
  | @routine i t r _ _ _ _ ht hr _ _ hb =>
      have K := C.known_routineScope t r
      refine C.snoc rfl ?_ (fun n hn => ?_) fun j n h => .inl ?_
      · rintro - params result body ⟨⟩ es hp
        have H : Waiting (g.context s) (s.routineScope t r).2 [] := nofun
        exact ⟨hb.ends hp, hb.settles K H hp⟩
      · exact hb.knows ((gives_routineScope s t r).knows (hn.fresh t.name))
      · rcases lookup_cons_eq_some h with ⟨-, h⟩ | h
        · exact absurd h.symm (Routine.form_ne hr)
        · exact h
  | native =>
      refine ⟨C.known_of (fun _ => id) fun j n h => .inl ?_, C.decls⟩
      rcases lookup_cons_eq_some h with ⟨-, h⟩ | h
      · cases h
      · exact h
  | @emulation i t symbol signature e =>
      exact declareEmulation_complete C i t symbol (e.build signature)

theorem complete_of_declareAll {supply : Supply} {closure : Closure}
    (h : g.declareAll supply closure = .ok s) (hk : ∀ n ∈ g.globals, supply.Knows n) :
    s.Complete g := by
  refine declareAll_induct (motive := fun _ s => s.Complete g) h ⟨?_, nofun⟩
    fun _ _ _ _ _ _ C hd => hd.complete C
  rintro n (⟨item, hmem, rfl⟩ | ⟨u, hmem, rfl⟩ | ⟨i, h⟩)
  · exact hk _ (List.mem_append_left _ (List.mem_map_of_mem hmem))
  · exact hk _ (List.mem_append_right _ (List.mem_map_of_mem hmem))
  · cases h

theorem goes_lowerMain {main : Main} (h : g.lowerMain s = .ok main) (C : s.Complete g) :
    Goes main.statements := by
  obtain ⟨ss₁, σ, ss₂, σ', hs, ha, hm⟩ := lowerMain_parts h
  have K : Known (g.context s) ⟨s.supply, []⟩ := fun n hn => hn.elim (C.known n) nofun
  obtain ⟨hss, K'⟩ := hs.goes K
  exact hm ▸ hss.append (ha.goes K')

end Declarations

section Names

theorem name_mem_idents (d : Decl) : d.name ∈ d.idents := by
  rw [Decl.idents]
  cases d.origin with
  | _ => exact List.mem_cons_self

theorem idents_of_function {d : Decl} {params : List Variable} {result : Dialect.Ty}
    {body : List Stmt} (ho : d.origin.isEmulation = false)
    (hk : d.kind = .function params result body) :
    d.idents = d.name :: (params.map Variable.name ++ Stmt.localNamesOf body) := by
  rw [Decl.idents, hk]
  cases h : d.origin with
  | emulation symbol => simp [h, Dialect.Origin.isEmulation] at ho
  | _ => rfl

theorem idents_disjoint {decls : List Decl} (hn : (decls.flatMap Decl.idents).Nodup) {k : Nat}
    {d d' : Decl} (hk : decls[k]? = some d) (hd' : d' ∈ decls.take k) :
    List.Disjoint d'.idents d.idents := by
  have hpair := (List.nodup_flatMap.mp hn).2
  rw [← List.take_append_drop k decls] at hpair
  have hd : d ∈ decls.drop k := List.mem_of_getElem? (i := 0) (by simpa using hk)
  exact (List.pairwise_append.mp hpair).2.2 d' hd' d hd

variable {globals : List String} {decls : List Decl}

theorem disciplined_function (hn : (globals ++ decls.flatMap Decl.idents).Nodup) {k : Nat}
    {d : Decl} (hk : decls[k]? = some d) (S : d.kind.Scoped ⟨globals, decls.take k⟩)
    {params : List Variable} {result : Dialect.Ty} {body : List Stmt}
    (hkind : d.kind = .function params result body) (ho : d.origin.isEmulation = false)
    (hsettles : ∀ es, Path body es → Settles [] es []) :
    Disciplined (params.map Variable.name ++ globals) body [] := by
  obtain ⟨-, hdecls, hglobal⟩ := List.nodup_append.mp hn
  have hmem := List.mem_of_getElem? hk
  have hid := (List.nodup_flatMap.mp hdecls).1 d hmem
  have hlocal {x : String} (hx : x ∈ Stmt.localNamesOf body) : x ∈ d.idents := by
    simp [idents_of_function ho hkind, hx]
  rw [idents_of_function ho hkind] at hid
  obtain ⟨-, hlocals, hparams⟩ := List.nodup_append.mp (List.nodup_cons.mp hid).2
  have hfixed : ∀ x ∈ Stmt.localNamesOf body, x ∉ params.map Variable.name ++ globals := by
    intro x hx h
    rcases List.mem_append.mp h with h | h
    · exact hparams x h x hx rfl
    · exact hglobal x h x (List.mem_flatMap.mpr ⟨d, hmem, hlocal hx⟩) rfl
  rw [hkind] at S
  refine Dialect.disciplined_of_settles hsettles S.2.2 nofun hlocals (fun x hx => ?_) hfixed
  rintro (h | ⟨d', hd', rfl, -⟩)
  · exact hfixed x hx h
  · exact idents_disjoint hdecls hk hd' (name_mem_idents d') (hlocal hx)

theorem disciplined_of_closed {body : Emulation.Body} (h : body.Closed)
    {params : List Variable} {result : Dialect.Ty} {ss : List Stmt}
    (hk : body.kind = .function params result ss) (fixed : List String) :
    (∀ es, Path ss es → Returns es) ∧ Disciplined fixed ss [] := by
  cases body with
  | function params result body =>
      cases hk
      exact ⟨fun es hp => Stmt.Closed.returns h hp, Stmt.Closed.disciplined h fixed⟩
  | constant leaf value => cases hk

theorem disciplined_main {main : Main}
    (hn : (globals ++ decls.flatMap Decl.idents ++ Stmt.localNamesOf main.statements).Nodup)
    (S : main.Scoped ⟨globals, decls⟩) (h : Goes main.statements) :
    Disciplined globals main.statements (main.discards ++ main.outputs.map OutputWrite.value) := by
  obtain ⟨-, hlocals, hne⟩ := List.nodup_append.mp hn
  have hfixed : ∀ x ∈ Stmt.localNamesOf main.statements, x ∉ globals :=
    fun x hx h => hne x (List.mem_append_left _ h) x hx rfl
  refine Dialect.disciplined_of_settles (fun es hp => (h es hp).1) S.statements ?_ hlocals ?_ hfixed
  · rw [List.forall_mem_append, List.forall_mem_map]
    exact ⟨S.discards, S.outputs⟩
  · rintro x hx (h | ⟨d', hd', rfl, -⟩)
    · exact hfixed x hx h
    · have hname := List.mem_flatMap.mpr ⟨d', hd', name_mem_idents d'⟩
      exact hne _ (List.mem_append_right _ hname) _ hx rfl

end Names

theorem Presents.globals {g : Setting} {d : Dialect.Shader} (P : Presents g d)
    (hl : g.interface.inputs.length = g.shader.inputs.length) : d.globals = g.globals := by
  rw [Dialect.Shader.globals, inputVars_names P.inputs hl, P.uniform_names, Setting.globals]

theorem globals_sublist (g : Setting) : g.globals.Sublist g.interface.idents :=
  (List.sublist_append_left _ _).append_right _

theorem mem_outputs_of_sink {g : Setting} {s : Progress} {main : Main}
    (h : g.lowerMain s = .ok main) {o : OutputWrite} (ho : o ∈ main.outputs) {n : String}
    (hs : o.sink = .var n) : n ∈ g.interface.outputs.map Item.ident := by
  obtain ⟨_, _, _, _, -, ha, -⟩ := lowerMain_parts h
  obtain ⟨k, hk⟩ := List.mem_iff_getElem?.mp ho
  obtain ⟨_, -, output, ident, houtput, -, hsink⟩ := ha.writes.getElem?_left hk
  obtain rfl := name_of_sink (hs ▸ hsink)
  exact List.mem_of_getElem? (List.getElem?_zip_eq_some.mp houtput).2

theorem not_mem_globals_of_output {g : Setting} (hn : g.interface.idents.Nodup) {n : String}
    (h : n ∈ g.interface.outputs.map Item.ident) : n ∉ g.globals := by
  obtain ⟨hfirst, -, huniforms⟩ := List.nodup_append.mp hn
  intro hg
  rcases List.mem_append.mp hg with hg | hg
  · exact (List.nodup_append.mp hfirst).2.2 n hg n h rfl
  · exact huniforms n (List.mem_append_right _ h) n hg rfl

/-- If the source reads no local outside of what binds it, and binds no id twice in one term or
shader, then every path through a function that is declared for a term, or for an emulation of the
standard table, returns a result, once and at its end, and the statements of the entry point return
nothing. In these bodies a local that is declared without a value is assigned once on each path that
comes to its declaration, before it is read, and nothing else is assigned: no other local, no
parameter, input or uniform. Nor is one written as an output. -/
theorem lower_disciplined {p : Program} {s : Shader} {closure : Closure} {v : Version}
    {table : Table} {d : Dialect.Shader} (hf : BoundLocals p s closure)
    (hu : UniqueBinders p s closure) (hd : lower p s closure v table = .ok d) :
    (∀ decl ∈ d.decls, decl.origin.isEmulation = false ∨ table = .standard →
      ∀ params result body, decl.kind = .function params result body →
        (∀ es, Path body es → Returns es) ∧
          Disciplined (params.map Variable.name ++ d.globals) body []) ∧
    (∀ value, .return value ∉ Stmt.eventsOf d.main.statements) ∧
    Disciplined d.globals d.main.statements
      (d.main.discards ++ d.main.outputs.map OutputWrite.value) ∧
    ∀ o ∈ d.main.outputs, ∀ n, o.sink = .var n →
      n ∉ d.globals ∧ n ∉ Stmt.localNamesOf d.main.statements := by
  obtain ⟨i, supply, hi, progress, hp, hm, P, -, -, hdecls⟩ := lower_eq_ok.mp hd
  obtain ⟨supply', hg⟩ := gives_lowerMain hm
  have A := Interface.assigned_of_assign hi
  have hgives := Interface.gives_of_assign hi
  have hnames := ((hgives.append (named_of_declareAll hp).gives).append hg).nodup
  have hsub := globals_sublist ⟨p, s, v, table, i⟩
  rw [P.globals A.inputs, hdecls]
  have S := scoped_of_declareAll hp hf.terms hu.terms
  have C := complete_of_declareAll hp fun n hn => hgives.known n (hsub.subset hn)
  have hgoes := goes_lowerMain hm C
  have hn := ((hsub.append_right _).append_right _).nodup hnames
  refine ⟨fun decl hmem hor params result body hkind => ?_, fun value hmem => ?_, ?_, ?_⟩
  · cases ho : decl.origin.isEmulation with
    | false =>
        obtain ⟨k, hk⟩ := List.mem_iff_getElem?.mp hmem
        have hpaths := C.decls decl hmem ho params result body hkind
        refine ⟨fun es hes => (hpaths es hes).1, ?_⟩
        exact disciplined_function (List.nodup_append.mp hn).1 hk (S.decls k decl hk ho) hkind ho
          fun es hes => (hpaths es hes).2
    | true =>
        obtain rfl := hor.resolve_left (by simp [ho])
        obtain ⟨symbol, signature, e, hres, hk⟩ := emulation_of_declareAll hp hmem ho
        have hlisted := (Table.suits_of_standard_resolve hres).1
        exact disciplined_of_closed (Emulation.closed_build hlisted signature) (hk ▸ hkind) _
  · obtain ⟨es, hpath, hes⟩ := Path.exists_of_mem_eventsOf hmem
    exact (hgoes es hpath).2 value hes
  · exact disciplined_main hn (scoped_lowerMain hm S.context hf.shader hu.shader) hgoes
  · intro o ho n hsink
    have hout := mem_outputs_of_sink hm ho hsink
    refine ⟨not_mem_globals_of_output A.nodup hout, fun hlocal => ?_⟩
    have hident : n ∈ i.idents := List.mem_append_left _ (List.mem_append_right _ hout)
    exact (List.nodup_append.mp hnames).2.2 n (List.mem_append_left _ hident) n hlocal rfl

open Nested in
theorem lower_disciplined_nested :
    BoundLocals program shader closure ∧ UniqueBinders program shader closure ∧
      ∃ d, lower program shader closure (.full .v110) .standard = .ok d ∧
        (∀ decl ∈ d.decls, ∀ params result body, decl.kind = .function params result body →
          (∀ es, Path body es → Returns es) ∧
            Disciplined (params.map Variable.name ++ d.globals) body []) ∧
        (∀ value, .return value ∉ Stmt.eventsOf d.main.statements) ∧
        Disciplined d.globals d.main.statements
          (d.main.discards ++ d.main.outputs.map OutputWrite.value) ∧
        ∀ o ∈ d.main.outputs, ∀ n, o.sink = .var n →
          n ∉ d.globals ∧ n ∉ Stmt.localNamesOf d.main.statements := by
  have hf : BoundLocals program shader closure := by decide
  have hu : UniqueBinders program shader closure := by decide
  obtain ⟨d, hd⟩ : ∃ d, lower program shader closure (.full .v110) .standard = .ok d :=
    Except.exists_eq_ok_of_isOk (by decide +kernel)
  obtain ⟨hfunctions, hrest⟩ := lower_disciplined hf hu hd
  exact ⟨hf, hu, d, hd, fun decl hmem => hfunctions decl hmem (.inr rfl), hrest⟩

end ShaderDialects.Lowering
