import ShaderDialects.Lowering.Expr
import ShaderDialects.Proofs.Except
import ShaderDialects.Proofs.Source.Typing

namespace ShaderDialects.Lowering

open Dialect (Stmt)

namespace Emit

variable {α β : Type} {σ : Scope}

theorem run_pure (a : α) : (Pure.pure a : Emit α).run σ = .ok ⟨a, [], σ⟩ := rfl

theorem run_bind_eq_ok {m : Emit α} {f : α → Emit β} {r : Emitted β} :
    (m >>= f).run σ = .ok r ↔ ∃ a, m.run σ = .ok a ∧ ∃ b, (f a.value).run a.scope = .ok b ∧
      ⟨b.value, a.stmts ++ b.stmts, b.scope⟩ = r := by
  change (m.run σ >>= fun a => (f a.value).run a.scope >>= fun b =>
    Pure.pure ⟨b.value, a.stmts ++ b.stmts, b.scope⟩) = .ok r ↔ _
  simp only [Except.bind_eq_ok, Except.pure_eq_ok]

theorem run_ofExcept_eq_ok {x : Except Error α} {r : Emitted α} :
    (ofExcept x).run σ = .ok r ↔ ∃ a, x = .ok a ∧ ⟨a, [], σ⟩ = r := by
  simp only [ofExcept, Except.map_eq_ok]

theorem run_emit (s : Stmt) : (emit s).run σ = .ok ⟨(), [s], σ⟩ := rfl

theorem run_capture_eq_ok {m : Emit Unit} {r : Emitted (List Stmt)} :
    (capture m).run σ = .ok r ↔ ∃ a, m.run σ = .ok a ∧ ⟨a.stmts, [], a.scope⟩ = r := by
  change (m.run σ >>= fun a => Pure.pure ⟨a.stmts, [], a.scope⟩) = .ok r ↔ _
  simp only [Except.bind_eq_ok, Except.pure_eq_ok]

end Emit

namespace Scope

variable (σ : Scope)

def fresh (label : String) : String × Scope :=
  ((σ.supply.fresh label).1, { σ with supply := (σ.supply.fresh label).2 })

def temporary : String × Scope :=
  (σ.supply.temporary.1, { σ with supply := σ.supply.temporary.2 })

def bind (id : Nat) (name : String) : Scope := { σ with locals := (id, name) :: σ.locals }

end Scope

inductive Task where
  | value (e : Expr) (x : Dialect.Expr)
  | values (es : List Expr) (xs : List Dialect.Expr)
  | into (e : Expr) (place : Place)
  | declare (b : Binding) (value : Expr)

/-- `Lowers c task σ ss σ'`: started in the scope `σ`, the task emits `ss` and leaves `σ'`. -/
inductive Lowers (c : Context) : Task → Scope → List Stmt → Scope → Prop where
  | literal {n v σ} : Lowers c (.value (.literal n v) (.literal v)) σ [] σ
  | bound {n id name σ} (hl : σ.locals.lookup id = some name) :
      Lowers c (.value (.bound n id) (.var name)) σ [] σ
  | term {n t x σ} (ht : c.readTerm t = .ok x) : Lowers c (.value (.term n t) x) σ [] σ
  | input {n i item σ} (hi : c.interface.inputs[i]? = some item) :
      Lowers c (.value (.input n i) (.var item.ident)) σ [] σ
  | path {e parameter path x σ} (hp : e.parameterPath? = some (parameter, path))
      (hx : c.rebuild parameter path e.ty = .ok x) : Lowers c (.value e x) σ [] σ
  | apply {n f args xs x σ ss σ'} (ha : Lowers c (.values args xs) σ ss σ')
      (hx : c.applyTerm f xs = .ok x) : Lowers c (.value (.apply n f args) x) σ ss σ'
  | construct {n r fields xs names σ ss σ'} (hr : c.constructible r = .ok ())
      (hf : Lowers c (.values fields xs) σ ss σ') (hn : c.structNames r = .ok names) :
      Lowers c (.value (.construct n r fields) (.user names.name xs)) σ ss σ'
  | field {n base i x name σ ss σ'} (hp : (Expr.field n base i).parameterPath? = none)
      (hn : c.fieldName base.ty i = .ok name) (hb : Lowers c (.value base x) σ ss σ') :
      Lowers c (.value (.field n base i) (.field x name)) σ ss σ'
  | swizzle {n base s x σ ss σ'} (hb : Lowers c (.value base x) σ ss σ') :
      Lowers c (.value (.swizzle n base s) (.swizzle x s)) σ ss σ'
  | hoistCond {n a b d ty σ ss σ'} (ht : c.ty n.ty = .ok ty)
      (hi : Lowers c (.into (.cond n a b d) (.assign σ.temporary.1)) σ.temporary.2 ss σ') :
      Lowers c (.value (.cond n a b d) (.var σ.temporary.1)) σ
        (.declare σ.temporary.1 ty none :: ss) σ'
  | hoistBind {n b value body ty σ ss σ'} (ht : c.ty n.ty = .ok ty)
      (hi : Lowers c (.into (.bind n b value body) (.assign σ.temporary.1)) σ.temporary.2 ss σ') :
      Lowers c (.value (.bind n b value body) (.var σ.temporary.1)) σ
        [.declare σ.temporary.1 ty none, .block ss] σ'
  | nil {σ} : Lowers c (.values [] []) σ [] σ
  | cons {e es x xs σ σ₁ σ₂ ss₁ ss₂} (he : Lowers c (.value e x) σ ss₁ σ₁)
      (hes : Lowers c (.values es xs) σ₁ ss₂ σ₂) :
      Lowers c (.values (e :: es) (x :: xs)) σ (ss₁ ++ ss₂) σ₂
  | write {e x place σ ss σ'} (hb : e.isBranching = false) (he : Lowers c (.value e x) σ ss σ') :
      Lowers c (.into e place) σ (ss ++ [place.write x]) σ'
  | choose {n a b d x place σ σ₁ σ₂ σ₃ ss accept reject} (hc : Lowers c (.value a x) σ ss σ₁)
      (ha : Lowers c (.into b place) σ₁ accept σ₂) (hr : Lowers c (.into d place) σ₂ reject σ₃) :
      Lowers c (.into (.cond n a b d) place) σ (ss ++ [.cond x accept reject]) σ₃
  | bind {n b value body place σ σ₁ σ₂ ss₁ ss₂} (hv : Lowers c (.declare b value) σ ss₁ σ₁)
      (hb : Lowers c (.into body place) σ₁ ss₂ σ₂) :
      Lowers c (.into (.bind n b value body) place) σ (ss₁ ++ ss₂) σ₂
  | assignLocal {b value ty σ ss σ'} (hb : value.isBranching = true) (ht : c.ty b.ty = .ok ty)
      (hv : Lowers c (.into value (.assign (σ.fresh b.name).1)) (σ.fresh b.name).2 ss σ') :
      Lowers c (.declare b value) σ (.declare (σ.fresh b.name).1 ty none :: ss)
        (σ'.bind b.id (σ.fresh b.name).1)
  | initLocal {b value x ty σ ss σ'} (hb : value.isBranching = false) (ht : c.ty b.ty = .ok ty)
      (hv : Lowers c (.value value x) (σ.fresh b.name).2 ss σ') :
      Lowers c (.declare b value) σ (ss ++ [.declare (σ.fresh b.name).1 ty (some x)])
        (σ'.bind b.id (σ.fresh b.name).1)

open Code in
def Task.Runs (c : Context) (σ : Scope) (ss : List Stmt) (σ' : Scope) : Task → Prop
  | value e x => (ofExpr c e).value.run σ = .ok ⟨x, ss, σ'⟩
  | values es xs => (valuesOf c es).run σ = .ok ⟨xs, ss, σ'⟩
  | into e place => ((ofExpr c e).into place).run σ = .ok ⟨(), ss, σ'⟩
  | declare b e => (declareLocal c b e.isBranching (ofExpr c e)).run σ = .ok ⟨(), ss, σ'⟩

namespace Code

open Emit

variable {c : Context} {σ : Scope}

theorem ofExpr_into {e : Expr} (h : e.isBranching = false) (place : Place) :
    (ofExpr c e).into place = (do emit (place.write (← (ofExpr c e).value))) := by
  cases e with
  | cond n a b d => simp [Expr.isBranching] at h
  | bind n b value body => simp [Expr.isBranching] at h
  | field n base i =>
      rw [ofExpr]
      split <;> rfl
  | _ => rfl

theorem run_into_eq_ok {e : Expr} (h : e.isBranching = false) {place : Place} {r : Emitted Unit} :
    ((ofExpr c e).into place).run σ = .ok r ↔ ∃ a, (ofExpr c e).value.run σ = .ok a ∧
      ⟨(), a.stmts ++ [place.write a.value], a.scope⟩ = r := by
  rw [ofExpr_into h, run_bind_eq_ok]
  simp [run_emit]

theorem run_ofStatements_eq_ok {ty : Ty} {compute into : Place → Emit Unit}
    {r : Emitted Dialect.Expr} :
    (ofStatements c ty compute into).value.run σ = .ok r ↔ ∃ t, c.ty ty = .ok t ∧
      ∃ a, (compute (.assign σ.temporary.1)).run σ.temporary.2 = .ok a ∧
        ⟨.var σ.temporary.1, .declare σ.temporary.1 t none :: a.stmts, a.scope⟩ = r := by
  change (temporary >>= fun name => ofExcept (c.ty ty) >>= fun t =>
    emit (.declare name t none) >>= fun _ => compute (.assign name) >>= fun _ =>
      Pure.pure (Dialect.Expr.var name)).run σ = .ok r ↔ _
  have ht : temporary.run σ = .ok ⟨σ.temporary.1, [], σ.temporary.2⟩ := rfl
  simp [run_bind_eq_ok, run_ofExcept_eq_ok, run_emit, run_pure, ht]

theorem run_choose_eq_ok {a b d : Code} {place : Place} {r : Emitted Unit} :
    (choose a b d place).run σ = .ok r ↔ ∃ x, a.value.run σ = .ok x ∧
      ∃ y z, (b.into place).run x.scope = .ok y ∧ (d.into place).run y.scope = .ok z ∧
        ⟨(), x.stmts ++ [.cond x.value y.stmts z.stmts], z.scope⟩ = r := by
  simp [choose, run_bind_eq_ok, run_capture_eq_ok, run_emit, and_assoc]

theorem run_inBlock_eq_ok {m : Emit Unit} {r : Emitted Unit} :
    (inBlock m).run σ = .ok r ↔ ∃ a, m.run σ = .ok a ∧ ⟨(), [.block a.stmts], a.scope⟩ = r := by
  simp [inBlock, run_bind_eq_ok, run_capture_eq_ok, run_emit]

theorem run_declareLocal_eq_ok {b : Binding} {branching : Bool} {value : Code}
    {r : Emitted Unit} :
    (declareLocal c b branching value).run σ = .ok r ↔ ∃ t, c.ty b.ty = .ok t ∧
      if branching then
        ∃ a, (value.into (.assign (σ.fresh b.name).1)).run (σ.fresh b.name).2 = .ok a ∧
          ⟨(), .declare (σ.fresh b.name).1 t none :: a.stmts,
            a.scope.bind b.id (σ.fresh b.name).1⟩ = r
      else
        ∃ a, value.value.run (σ.fresh b.name).2 = .ok a ∧
          ⟨(), a.stmts ++ [.declare (σ.fresh b.name).1 t (some a.value)],
            a.scope.bind b.id (σ.fresh b.name).1⟩ = r := by
  have hf : (fresh b.name).run σ = .ok ⟨(σ.fresh b.name).1, [], (σ.fresh b.name).2⟩ := rfl
  have hb (σ : Scope) (name : String) :
      (bindLocal b.id name).run σ = .ok ⟨(), [], σ.bind b.id name⟩ := rfl
  cases branching <;>
    simp [declareLocal, run_bind_eq_ok, run_ofExcept_eq_ok, run_emit, hf, hb]

theorem run_readLocal_eq_ok {id : Nat} {r : Emitted Dialect.Expr} :
    (readLocal c id).run σ = .ok r ↔
      ∃ name, σ.locals.lookup id = some name ∧ ⟨.var name, [], σ⟩ = r := by
  have hl : (local? id).run σ = .ok ⟨σ.locals.lookup id, [], σ⟩ := rfl
  cases h : σ.locals.lookup id with
  | none => simp [readLocal, run_bind_eq_ok, run_ofExcept_eq_ok, Context.malformed, hl, h]
  | some name => simp [readLocal, run_bind_eq_ok, run_pure, hl, h]

def letInto (c : Context) (b : Binding) (value body : Expr) (place : Place) : Emit Unit := do
  declareLocal c b value.isBranching (ofExpr c value)
  (ofExpr c body).into place

theorem ofExpr_bind (n : Note) (b : Binding) (value body : Expr) :
    ofExpr c (.bind n b value body) =
      ofStatements c n.ty (fun place => inBlock (letInto c b value body place))
        (letInto c b value body) := by
  rw [ofExpr]
  rfl

theorem run_valuesOf_cons_eq_ok {e : Expr} {es : List Expr} {r : Emitted (List Dialect.Expr)} :
    (valuesOf c (e :: es)).run σ = .ok r ↔ ∃ a, (ofExpr c e).value.run σ = .ok a ∧
      ∃ b, (valuesOf c es).run a.scope = .ok b ∧
        ⟨a.value :: b.value, a.stmts ++ b.stmts, b.scope⟩ = r := by
  simp [valuesOf, run_bind_eq_ok, run_pure]

theorem values_of_run {es : List Expr}
    (h : ∀ e ∈ es, ∀ σ r, (ofExpr c e).value.run σ = .ok r →
      Lowers c (.value e r.value) σ r.stmts r.scope)
    {r : Emitted (List Dialect.Expr)} (hr : (valuesOf c es).run σ = .ok r) :
    Lowers c (.values es r.value) σ r.stmts r.scope := by
  induction es generalizing σ r with
  | nil =>
      cases hr
      exact .nil
  | cons e es ih =>
      obtain ⟨a, ha, b, hb, rfl⟩ := run_valuesOf_cons_eq_ok.mp hr
      exact .cons (h e (by simp) _ _ ha) (ih (fun e he => h e (by simp [he])) hb)

theorem declare_of_run {b : Binding} {e : Expr}
    (hv : ∀ σ r, (ofExpr c e).value.run σ = .ok r → Lowers c (.value e r.value) σ r.stmts r.scope)
    (hi : ∀ place σ r, ((ofExpr c e).into place).run σ = .ok r →
      Lowers c (.into e place) σ r.stmts r.scope)
    {r : Emitted Unit} (hr : (declareLocal c b e.isBranching (ofExpr c e)).run σ = .ok r) :
    Lowers c (.declare b e) σ r.stmts r.scope := by
  obtain ⟨t, ht, hr⟩ := run_declareLocal_eq_ok.mp hr
  cases hb : e.isBranching with
  | true =>
      obtain ⟨a, ha, rfl⟩ := by simpa [hb] using hr
      exact .assignLocal hb ht (hi _ _ _ ha)
  | false =>
      obtain ⟨a, ha, rfl⟩ := by simpa [hb] using hr
      exact .initLocal hb ht (hv _ _ ha)

theorem lowers_of_run (e : Expr) :
    (∀ σ r, (ofExpr c e).value.run σ = .ok r → Lowers c (.value e r.value) σ r.stmts r.scope) ∧
      ∀ place σ r, ((ofExpr c e).into place).run σ = .ok r →
        Lowers c (.into e place) σ r.stmts r.scope := by
  have write {e : Expr} (hb : e.isBranching = false)
      (hv : ∀ σ r, (ofExpr c e).value.run σ = .ok r →
        Lowers c (.value e r.value) σ r.stmts r.scope) :
      (∀ σ r, (ofExpr c e).value.run σ = .ok r → Lowers c (.value e r.value) σ r.stmts r.scope) ∧
        ∀ place σ r, ((ofExpr c e).into place).run σ = .ok r →
          Lowers c (.into e place) σ r.stmts r.scope := by
    refine ⟨hv, fun place σ r hr => ?_⟩
    obtain ⟨a, ha, rfl⟩ := (run_into_eq_ok hb).mp hr
    exact .write hb (hv σ a ha)
  induction e with
  | literal n v =>
      refine write rfl fun σ r hr => ?_
      cases hr
      exact .literal
  | bound n id =>
      refine write rfl fun σ r hr => ?_
      obtain ⟨name, hl, rfl⟩ := run_readLocal_eq_ok.mp hr
      exact .bound hl
  | term n t =>
      refine write rfl fun σ r hr => ?_
      obtain ⟨x, hx, rfl⟩ := run_ofExcept_eq_ok.mp hr
      exact .term hx
  | input n i =>
      refine write rfl fun σ r hr => ?_
      obtain ⟨x, hx, rfl⟩ := run_ofExcept_eq_ok.mp hr
      cases hi : c.interface.inputs[i]? with
      | none => simp [readInput, hi, Context.malformed] at hx
      | some item =>
          simp only [readInput, hi, Except.ok.injEq] at hx
          subst hx
          exact .input hi
  | parameter n i =>
      refine write rfl fun σ r hr => ?_
      obtain ⟨x, hx, rfl⟩ := run_ofExcept_eq_ok.mp hr
      exact .path rfl hx
  | apply n f args ih =>
      refine write rfl fun σ r hr => ?_
      obtain ⟨a, ha, b, hb, rfl⟩ := run_bind_eq_ok.mp hr
      obtain ⟨x, hx, rfl⟩ := run_ofExcept_eq_ok.mp hb
      simpa using Lowers.apply (values_of_run (fun e he => (ih e he).1) ha) hx
  | construct n k fields ih =>
      refine write rfl fun σ r hr => ?_
      obtain ⟨u, hu, b, hb, rfl⟩ := run_bind_eq_ok.mp hr
      obtain ⟨_, hc, rfl⟩ := run_ofExcept_eq_ok.mp hu
      obtain ⟨a, ha, d, hd, rfl⟩ := run_bind_eq_ok.mp hb
      obtain ⟨e, he, f, hf, rfl⟩ := run_bind_eq_ok.mp hd
      obtain ⟨names, hn, rfl⟩ := run_ofExcept_eq_ok.mp he
      cases hf
      simpa using Lowers.construct hc (values_of_run (fun e he => (ih e he).1) ha) hn
  | field n base i ih =>
      refine write rfl fun σ r hr => ?_
      cases hp : (Expr.field n base i).parameterPath? with
      | some q =>
          rw [ofExpr, hp] at hr
          obtain ⟨x, hx, rfl⟩ := run_ofExcept_eq_ok.mp hr
          exact .path hp hx
      | none =>
          rw [ofExpr, hp] at hr
          obtain ⟨u, hu, b, hb, rfl⟩ := run_bind_eq_ok.mp hr
          obtain ⟨name, hn, rfl⟩ := run_ofExcept_eq_ok.mp hu
          obtain ⟨a, ha, d, hd, rfl⟩ := run_bind_eq_ok.mp hb
          cases hd
          simpa using Lowers.field hp hn (ih.1 _ _ ha)
  | swizzle n base s ih =>
      refine write rfl fun σ r hr => ?_
      obtain ⟨a, ha, d, hd, rfl⟩ := run_bind_eq_ok.mp hr
      cases hd
      simpa using Lowers.swizzle (ih.1 _ _ ha)
  | cond n a b d iha ihb ihd =>
      have into : ∀ place σ r, ((ofExpr c (.cond n a b d)).into place).run σ = .ok r →
          Lowers c (.into (.cond n a b d) place) σ r.stmts r.scope := by
        intro place σ r hr
        obtain ⟨x, hx, y, z, hy, hz, rfl⟩ := run_choose_eq_ok.mp hr
        exact .choose (iha.1 _ _ hx) (ihb.2 _ _ _ hy) (ihd.2 _ _ _ hz)
      refine ⟨fun σ r hr => ?_, into⟩
      obtain ⟨t, ht, x, hx, rfl⟩ := run_ofStatements_eq_ok.mp hr
      exact .hoistCond ht (into _ _ _ hx)
  | bind n b value body ihv ihb =>
      have into : ∀ place σ r, ((ofExpr c (.bind n b value body)).into place).run σ = .ok r →
          Lowers c (.into (.bind n b value body) place) σ r.stmts r.scope := by
        intro place σ r hr
        rw [ofExpr_bind] at hr
        obtain ⟨x, hx, y, hy, rfl⟩ := run_bind_eq_ok.mp hr
        exact .bind (declare_of_run ihv.1 ihv.2 hx) (ihb.2 _ _ _ hy)
      refine ⟨fun σ r hr => ?_, into⟩
      rw [ofExpr_bind] at hr into
      obtain ⟨t, ht, x, hx, rfl⟩ := run_ofStatements_eq_ok.mp hr
      obtain ⟨y, hy, rfl⟩ := run_inBlock_eq_ok.mp hx
      exact .hoistBind ht (into _ _ _ hy)

end Code

open Code Emit in
theorem Lowers.runs {c : Context} {task : Task} {σ σ' : Scope} {ss : List Stmt}
    (h : Lowers c task σ ss σ') : task.Runs c σ ss σ' := by
  induction h with
  | literal => rfl
  | bound hl => exact run_readLocal_eq_ok.mpr ⟨_, hl, rfl⟩
  | term ht => exact run_ofExcept_eq_ok.mpr ⟨_, ht, rfl⟩
  | input hi => exact run_ofExcept_eq_ok.mpr ⟨_, by rw [readInput, hi], rfl⟩
  | @path e parameter path x σ hp hx =>
      cases e with
      | parameter n i =>
          obtain ⟨rfl, rfl⟩ := by simpa [Expr.parameterPath?] using hp
          exact run_ofExcept_eq_ok.mpr ⟨_, hx, rfl⟩
      | field n base i =>
          rw [Task.Runs, ofExpr, hp]
          exact run_ofExcept_eq_ok.mpr ⟨_, hx, rfl⟩
      | _ => simp [Expr.parameterPath?] at hp
  | apply _ hx ih =>
      exact run_bind_eq_ok.mpr ⟨_, ih, _, run_ofExcept_eq_ok.mpr ⟨_, hx, rfl⟩, by simp⟩
  | construct hr _ hn ih =>
      refine run_bind_eq_ok.mpr ⟨_, run_ofExcept_eq_ok.mpr ⟨_, hr, rfl⟩, ⟨_, _, _⟩, ?_, rfl⟩
      refine run_bind_eq_ok.mpr ⟨_, ih, ⟨_, [], _⟩, ?_, by rw [List.append_nil]⟩
      exact run_bind_eq_ok.mpr ⟨_, run_ofExcept_eq_ok.mpr ⟨_, hn, rfl⟩, _, rfl, rfl⟩
  | field hp hn _ ih =>
      rw [Task.Runs, ofExpr, hp]
      refine run_bind_eq_ok.mpr ⟨_, run_ofExcept_eq_ok.mpr ⟨_, hn, rfl⟩, ⟨_, _, _⟩, ?_, rfl⟩
      exact run_bind_eq_ok.mpr ⟨_, ih, _, rfl, by simp⟩
  | swizzle _ ih => exact run_bind_eq_ok.mpr ⟨_, ih, _, rfl, by simp⟩
  | hoistCond ht _ ih => exact run_ofStatements_eq_ok.mpr ⟨_, ht, _, ih, rfl⟩
  | hoistBind ht _ ih =>
      simp only [Task.Runs, ofExpr_bind] at ih ⊢
      exact run_ofStatements_eq_ok.mpr ⟨_, ht, _, run_inBlock_eq_ok.mpr ⟨_, ih, rfl⟩, rfl⟩
  | nil => rfl
  | cons _ _ ih ihs => exact run_valuesOf_cons_eq_ok.mpr ⟨_, ih, _, ihs, rfl⟩
  | write hb _ ih => exact (run_into_eq_ok hb).mpr ⟨_, ih, rfl⟩
  | choose _ _ _ ih ih₁ ih₂ => exact run_choose_eq_ok.mpr ⟨_, ih, _, _, ih₁, ih₂, rfl⟩
  | bind _ _ ih ih₁ =>
      rw [Task.Runs, ofExpr_bind]
      exact run_bind_eq_ok.mpr ⟨_, ih, _, ih₁, rfl⟩
  | assignLocal hb ht _ ih =>
      refine run_declareLocal_eq_ok.mpr ⟨_, ht, ?_⟩
      rw [if_pos hb]
      exact ⟨_, ih, rfl⟩
  | initLocal hb ht _ ih =>
      refine run_declareLocal_eq_ok.mpr ⟨_, ht, ?_⟩
      rw [hb, if_neg Bool.false_ne_true]
      exact ⟨_, ih, rfl⟩

/-- Runs and derivations are the same thing. -/
theorem lowers_iff_runs {c : Context} {task : Task} {σ σ' : Scope} {ss : List Stmt} :
    Lowers c task σ ss σ' ↔ task.Runs c σ ss σ' := by
  refine ⟨Lowers.runs, fun h => ?_⟩
  cases task with
  | value e x => exact (Code.lowers_of_run e).1 _ _ h
  | values es xs => exact Code.values_of_run (fun e _ => (Code.lowers_of_run e).1) h
  | into e place => exact (Code.lowers_of_run e).2 _ _ _ h
  | declare b e => exact Code.declare_of_run (Code.lowers_of_run e).1 (Code.lowers_of_run e).2 h

end ShaderDialects.Lowering
