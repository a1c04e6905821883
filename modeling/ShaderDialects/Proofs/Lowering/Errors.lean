import ShaderDialects.Proofs.Legality.Expression
import ShaderDialects.Proofs.Lowering.Declaration
import ShaderDialects.Proofs.Source.FreeLocals

namespace ShaderDialects.Lowering

open Identifier (Supply)

def Malformation.isPlain : Malformation → Bool
  | unboundLocal _ | samplerRecord _ => false
  | _ => true

/-- No bad error is about a builtin, and of the rules that a shader can break at most those about
locals and samplers are bad. -/
structure Narrow (bad : Error → Prop) (shader : String) : Prop where
  builtin : ∀ e, ¬ bad (.builtin e)
  plain : ∀ reason, reason.isPlain = true → ¬ bad (.malformed shader reason)

/-- Nor is a bad error about a reference that cannot be followed. -/
structure Inner (bad : Error → Prop) (shader : String) : Prop extends Narrow bad shader where
  fault : ∀ f, ¬ bad (.fault f)
  undeclared : ∀ name, ¬ bad (.undeclared name)

theorem Inner.avoids_fault {α : Type} {bad : Error → Prop} {shader : String} (I : Inner bad shader)
    (x : Except Fault α) : (x.mapError Error.fault).Avoids bad := by
  cases x with
  | ok a => exact .ok
  | error f => exact .error (I.fault f)

def Scope.Binds (ids : List Nat) (σ : Scope) : Prop :=
  ∀ id ∈ ids, ∃ name, σ.locals.lookup id = some name

namespace Emit

variable {α β : Type} {bad : Error → Prop} {ids mid out : List Nat}

/-- Where the locals `ids` have names, the computation does not end in a bad error, and it leaves a
scope where those of `out` have. -/
structure Avoids (bad : Error → Prop) (ids out : List Nat) (m : Emit α) : Prop where
  run : ∀ σ, σ.Binds ids → (m.run σ).Avoids bad
  binds : ∀ σ r, σ.Binds ids → m.run σ = .ok r → r.scope.Binds out

namespace Avoids

theorem of_keeps {m : Emit α} (h : ∀ σ, ∃ r, m.run σ = .ok r ∧ r.scope.locals = σ.locals) :
    m.Avoids bad ids ids where
  run σ _ := .of_exists ((h σ).imp fun _ hr => hr.1)
  binds σ r hσ hr := by
    obtain ⟨r', hr', hl⟩ := h σ
    cases hr'.symm.trans hr
    rwa [Scope.Binds, hl]

theorem pure {a : α} : (Pure.pure a : Emit α).Avoids bad ids ids := of_keeps fun _ => ⟨_, rfl, rfl⟩

theorem bind {m : Emit α} {f : α → Emit β} (hm : m.Avoids bad ids mid)
    (hf : ∀ a, (f a).Avoids bad mid out) : (m >>= f).Avoids bad ids out where
  run σ hσ := (hm.run σ hσ).bind_eq fun first hfirst =>
    ((hf first.value).run _ (hm.binds σ first hσ hfirst)).bind fun _ => .ok
  binds σ r hσ hr := by
    obtain ⟨first, hfirst, second, hsecond, rfl⟩ := run_bind_eq_ok.mp hr
    exact (hf first.value).binds _ second (hm.binds σ first hσ hfirst) hsecond

theorem mono {m : Emit α} (h : m.Avoids bad ids mid) (hs : out ⊆ mid) : m.Avoids bad ids out where
  run := h.run
  binds σ r hσ hr id hid := h.binds σ r hσ hr id (hs hid)

theorem ofExcept {x : Except Error α} (h : x.Avoids bad) :
    (ofExcept x).Avoids bad ids ids where
  run _ _ := h.map
  binds σ r hσ hr := by
    obtain ⟨a, -, rfl⟩ := run_ofExcept_eq_ok.mp hr
    exact hσ

/-- Nothing comes after a failure, so that any locals may be taken for bound there. -/
theorem error {e : Error} (h : ¬ bad e) :
    (Emit.ofExcept (.error e) : Emit α).Avoids bad ids out where
  run _ _ := .error h
  binds σ r hσ hr := by cases hr

theorem capture {m : Emit Unit} (h : m.Avoids bad ids out) : (capture m).Avoids bad ids out where
  run σ hσ := (h.run σ hσ).bind fun _ => .ok
  binds σ r hσ hr := by
    obtain ⟨a, ha, rfl⟩ := run_capture_eq_ok.mp hr
    exact h.binds σ a hσ ha

theorem emit {s : Dialect.Stmt} : (emit s).Avoids bad ids ids := of_keeps fun _ => ⟨_, rfl, rfl⟩

theorem fresh {label : String} : (fresh label).Avoids bad ids ids :=
  of_keeps fun _ => ⟨_, rfl, rfl⟩

theorem temporary : temporary.Avoids bad ids ids := of_keeps fun _ => ⟨_, rfl, rfl⟩

theorem bindLocal {id : Nat} {name : String} : (bindLocal id name).Avoids bad ids (id :: ids) where
  run _ _ := .ok
  binds σ r hσ hr i hi := by
    cases hr
    exact Scope.exists_lookup_bind fun hne => hσ i (List.mem_of_ne_of_mem hne hi)

end Avoids

end Emit

namespace Context

variable (bad : Error → Prop) (c : Context)

/-- It is no bad error if one of these locals is not bound. -/
def Spares (ids : List Nat) : Prop :=
  ∀ id ∈ ids, ¬ bad (.malformed c.shader.name (.unboundLocal id))

def OwnAvoids : Expr → Prop
  | .literal _ _ | .bound _ _ | .swizzle _ _ _ => True
  | .term _ t => (c.readTerm t).Avoids bad
  | .input _ i => (Code.readInput c i).Avoids bad
  | .parameter n q => (c.rebuild q [] n.ty).Avoids bad
  | .apply _ f _ => ∀ args, (c.applyTerm f args).Avoids bad
  | .cond n _ _ _ => (c.ty n.ty).Avoids bad
  | .bind n b _ _ => (c.ty n.ty).Avoids bad ∧ (c.ty b.ty).Avoids bad
  | .construct _ r _ => (c.constructible r).Avoids bad ∧ (c.structNames r).Avoids bad
  | .field n base i =>
      match (Expr.field n base i).parameterPath? with
      | some (q, path) => (c.rebuild q path n.ty).Avoids bad
      | none => (c.fieldName base.ty i).Avoids bad

variable {bad c}

theorem avoids_constructible {i : Nat}
    (hs : ((c.program.holdsSampler (.record i)).mapError Error.fault).Avoids bad)
    (hr : (c.record i).Avoids bad)
    (hm : ∀ name, ¬ bad (.malformed c.shader.name (.samplerRecord name))) :
    (c.constructible i).Avoids bad := by
  refine hs.bind fun b => ?_
  cases b with
  | false => exact .ok
  | true => exact hr.bind fun r => .error (hm r.name)

/-- A part of a parameter is rebuilt without a bad error if its type has a property that says so of
a record and is handed on to its fields. -/
theorem avoids_rebuildWithin {R : Nat → Ty → Prop} (N : Narrow bad c.shader.name)
    (endless : ∀ i, R 0 (.record i) → ¬ bad (.fault (.endless i)))
    (own : ∀ depth i, R depth (.record i) →
      (c.constructible i).Avoids bad ∧ (c.record i).Avoids bad ∧ (c.structNames i).Avoids bad)
    (fields : ∀ depth i r, R (depth + 1) (.record i) → c.program.records[i]? = some r →
      ∀ f ∈ r.fields, R depth f.ty)
    {depth q : Nat} {path : List Nat} {ty : Ty} (h : R depth ty) :
    (c.rebuildWithin depth q path ty).Avoids bad := by
  induction depth generalizing path ty with
  | zero =>
      cases ty with
      | leaf t =>
          rw [rebuildWithin]
          split
          · exact .ok
          · exact .error (N.plain _ rfl)
      | record i =>
          obtain ⟨hc, hr, -⟩ := own 0 i h
          exact hc.bind fun _ => hr.bind fun _ => .error (endless i h)
  | succ depth ih =>
      cases ty with
      | leaf t =>
          rw [rebuildWithin]
          split
          · exact .ok
          · exact .error (N.plain _ rfl)
      | record i =>
          obtain ⟨hc, hr, hn⟩ := own (depth + 1) i h
          rw [rebuildWithin]
          refine hc.bind fun _ => hr.bind_eq fun r hr => ?_
          refine Except.Avoids.bind (.mapM fun fk hfk => ?_) fun args => hn.bind fun _ => .ok
          exact ih (fields depth i r h (record_eq_ok.mp hr) fk.1 (List.fst_mem_of_mem_zipIdx hfk))

variable (bad c) in
structure Finds (D : DeclId → Prop) : Prop where
  structNames : ∀ i, D (.record i) → (c.structNames i).Avoids bad
  term : ∀ i, D (.term i) → (c.term i).Avoids bad
  termForm : ∀ i, D (.term i) → (c.termForm i).Avoids bad

namespace Finds

variable {D : DeclId → Prop} (F : c.Finds bad D)
include F

theorem ty {ty : Ty} (h : ∀ d ∈ ty.mentions, D d) : (c.ty ty).Avoids bad := by
  cases ty with
  | leaf t => exact .ok
  | record i => exact (F.structNames i (h _ List.mem_cons_self)).map

variable (N : Narrow bad c.shader.name)
include N

theorem malformed {i : Nat} (hi : D (.term i)) {reason : Term → Malformation}
    (h : ∀ t, (reason t).isPlain = true) :
    (c.term i >>= fun t => (c.malformed (reason t) : Except Error Dialect.Expr)).Avoids bad :=
  (F.term i hi).bind fun t => .error (N.plain _ (h t))

theorem readTerm {i : Nat} (hi : D (.term i)) : (c.readTerm i).Avoids bad := by
  refine (F.termForm i hi).bind fun form => ?_
  split
  · exact .ok
  · exact .ok
  · exact .ok
  all_goals exact F.malformed N hi fun _ => rfl

theorem applyTerm {i : Nat} (hi : D (.term i)) (args : List Dialect.Expr) :
    (c.applyTerm i args).Avoids bad := by
  refine (F.termForm i hi).bind fun form => ?_
  split
  · exact .ok
  · exact .ok
  · exact .ok
  · split
    · exact .ok
    · exact F.malformed N hi fun _ => rfl
  · split
    · exact .ok
    · exact F.malformed N hi fun _ => rfl
  all_goals exact F.malformed N hi fun _ => rfl

theorem fieldName {base : Ty} (h : ∀ d ∈ base.mentions, D d) (index : Nat) :
    (c.fieldName base index).Avoids bad := by
  cases base with
  | leaf t => exact .error (N.plain _ rfl)
  | record i =>
      refine (F.structNames i (h _ List.mem_cons_self)).bind fun names => ?_
      split
      · exact .ok
      · exact .error (N.plain _ rfl)

theorem ownAvoids {e : Expr} (h : ∀ d ∈ e.mentions, D d)
    (hpath : ∀ q path, e.parameterPath? = some (q, path) → (c.rebuild q path e.ty).Avoids bad)
    (hrecord : ∀ n r fields, e = .construct n r fields → (c.constructible r).Avoids bad) :
    c.OwnAvoids bad e := by
  have hown {d : DeclId} (hd : d ∈ e.ownMentions) : D d := h d (Expr.mentions_of_own hd)
  have hty : (c.ty e.ty).Avoids bad := F.ty fun d hd => hown (List.mem_append_left _ hd)
  cases e with
  | literal n v | bound n id | swizzle n base s => trivial
  | term n t => exact F.readTerm N (hown (by simp [Expr.ownMentions]))
  | input n i =>
      rw [OwnAvoids, Code.readInput]
      split
      · exact .ok
      · exact .error (N.plain _ rfl)
  | parameter n q => exact hpath q [] rfl
  | apply n f args => exact F.applyTerm N (hown (by simp [Expr.ownMentions]))
  | cond n a b d => exact hty
  | bind n b value body => exact ⟨hty, F.ty fun d hd => hown (List.mem_append_right _ hd)⟩
  | construct n r fields =>
      exact ⟨hrecord n r fields rfl, F.structNames r (hown (by simp [Expr.ownMentions]))⟩
  | field n base i =>
      rw [OwnAvoids]
      split
      · next q path hp => exact hpath q path hp
      · refine F.fieldName N (fun d hd => h d ?_) i
        exact Expr.mentions_of_child List.mem_cons_self
          (Expr.mentions_of_own (List.mem_append_left _ hd))

end Finds

section Inner

variable (I : Inner bad c.shader.name)
include I

theorem finds_of_inner : c.Finds bad fun _ => True where
  structNames i _ := by
    rw [structNames]
    split
    · exact .ok
    · exact (I.avoids_fault _).bind fun _ => .error (I.undeclared _)
  term i _ := I.avoids_fault _
  termForm i _ := by
    rw [termForm]
    split
    · exact .ok
    · exact (I.avoids_fault _).bind fun _ => .error (I.undeclared _)

theorem ownAvoids_of_inner {R : Ty → Prop}
    (own : ∀ i, R (.record i) → (c.constructible i).Avoids bad)
    (fields : ∀ i r, R (.record i) → c.program.records[i]? = some r → ∀ f ∈ r.fields, R f.ty)
    {e : Expr} (hpath : e.parameterPath?.isSome → R e.ty)
    (hrecord : ∀ n r fields, e = .construct n r fields → R (.record r)) : c.OwnAvoids bad e := by
  have F := finds_of_inner I
  refine F.ownAvoids I.toNarrow (fun _ _ => trivial) (fun q path hp => ?_)
    fun n r fields he => own r (hrecord n r fields he)
  exact avoids_rebuildWithin (R := fun _ => R) I.toNarrow (fun i _ => I.fault (.endless i))
    (fun _ i h => ⟨own i h, I.avoids_fault _, F.structNames i trivial⟩)
    (fun _ i r h => fields i r h) (hpath (by rw [hp]; rfl))

end Inner

end Context

namespace Code

open Emit

variable {bad : Error → Prop} {c : Context} {ids mid out : List Nat}

structure Avoids (bad : Error → Prop) (ids out : List Nat) (code : Code) : Prop where
  value : code.value.Avoids bad ids out
  into : ∀ place, (code.into place).Avoids bad ids out

theorem Avoids.ofValue {value : Emit Dialect.Expr} (h : value.Avoids bad ids out) :
    (ofValue value).Avoids bad ids out :=
  ⟨h, fun _ => h.bind fun _ => .emit⟩

theorem Avoids.ofStatements {ty : Ty} {compute into : Place → Emit Unit}
    (hty : (c.ty ty).Avoids bad) (hcompute : ∀ place, (compute place).Avoids bad ids out)
    (hinto : ∀ place, (into place).Avoids bad ids out) :
    (ofStatements c ty compute into).Avoids bad ids out := by
  refine ⟨?_, hinto⟩
  refine .bind .temporary fun name => .bind (.ofExcept hty) fun ty => ?_
  exact .bind .emit fun _ => .bind (hcompute _) fun _ => .pure

theorem avoids_declareLocal {binding : Binding} {branching : Bool} {value : Code}
    (hty : (c.ty binding.ty).Avoids bad) (hvalue : value.Avoids bad ids out) :
    (declareLocal c binding branching value).Avoids bad ids (binding.id :: out) := by
  refine .bind .fresh fun name => .bind (.ofExcept hty) fun ty => ?_
  cases branching with
  | true => exact .bind .emit fun _ => .bind (hvalue.into _) fun _ => .bindLocal
  | false => exact .bind hvalue.value fun _ => .bind .emit fun _ => .bindLocal

theorem avoids_readLocal {id : Nat}
    (h : id ∉ ids → ¬ bad (.malformed c.shader.name (.unboundLocal id))) :
    (readLocal c id).Avoids bad ids ids where
  run σ hσ := by
    by_cases hid : id ∈ ids
    · obtain ⟨name, hname⟩ := hσ id hid
      exact .of_exists ⟨_, run_readLocal_eq_ok.mpr ⟨name, hname, rfl⟩⟩
    · refine Except.Avoids.bind .ok fun a => Except.Avoids.bind ?_ fun _ => .ok
      cases a.value with
      | some name => exact .ok
      | none => exact .error (h hid)
  binds σ r hσ hr := by
    obtain ⟨name, -, rfl⟩ := run_readLocal_eq_ok.mp hr
    exact hσ

theorem avoids_choose {condition accept reject : Code} {next : List Nat}
    (hc : condition.Avoids bad ids mid) (ha : accept.Avoids bad mid next)
    (hr : reject.Avoids bad next out) (place : Place) :
    (choose condition accept reject place).Avoids bad ids out :=
  .bind hc.value fun _ => .bind (.capture (ha.into place)) fun _ =>
    .bind (.capture (hr.into place)) fun _ => .emit

theorem avoids_valuesOf {es : List Expr}
    (h : ∀ e ∈ es, ∀ ids, c.Spares bad (e.unbound ids) →
      (ofExpr c e).Avoids bad ids (e.binders ++ ids))
    (hu : c.Spares bad (Expr.unboundOf ids es)) :
    (valuesOf c es).Avoids bad ids (es.flatMap Expr.binders ++ ids) := by
  induction es generalizing ids with
  | nil => exact .pure
  | cons e es ih =>
      obtain ⟨he, hes⟩ := List.forall_mem_cons.mp h
      obtain ⟨hu, hus⟩ := List.forall_mem_append.mp hu
      refine .mono (.bind (he ids hu).value fun _ => .bind (ih hes hus) fun _ => .pure) ?_
      grind

/-- If no node of an expression ends in a bad error, and the reads that come before what binds them
are none, the expression does not. -/
theorem avoids_ofExpr {e : Expr} (h : ∀ x ∈ e.wholes, c.OwnAvoids bad x)
    (hu : c.Spares bad (e.unbound ids)) : (ofExpr c e).Avoids bad ids (e.binders ++ ids) := by
  have hself {e : Expr} (h : ∀ x ∈ e.wholes, c.OwnAvoids bad x) : c.OwnAvoids bad e :=
    h e e.mem_wholes_self
  have hchild {e x : Expr} (h : ∀ x ∈ e.wholes, c.OwnAvoids bad x) (hp : e.parameterPath? = none)
      (hx : x ∈ e.children) : ∀ y ∈ x.wholes, c.OwnAvoids bad y :=
    fun y hy => h y (Expr.wholes_of_child hp hx hy)
  -- What is bound on the way to a part is what lowering has named by then, in the same order.
  induction e generalizing ids with
  | literal n v => exact .ofValue .pure
  | bound n id =>
      refine .ofValue (avoids_readLocal fun hid => hu id ?_)
      simp [Expr.unbound, hid]
  | term n t => exact .ofValue (.ofExcept (hself h))
  | input n i => exact .ofValue (.ofExcept (hself h))
  | parameter n i => exact .ofValue (.ofExcept (hself h))
  | apply n f args ih =>
      rw [Expr.binders_apply]
      have hargs := avoids_valuesOf (fun x hx _ => ih x hx (hchild h rfl hx)) hu
      exact .ofValue (.bind hargs fun args => .ofExcept (hself h args))
  | construct n r fields ih =>
      obtain ⟨hr, hn⟩ := hself h
      rw [Expr.binders_construct]
      have hargs := avoids_valuesOf (fun x hx _ => ih x hx (hchild h rfl hx)) hu
      exact .ofValue (.bind (.ofExcept hr) fun _ => .bind hargs fun args =>
        .bind (.ofExcept hn) fun _ => .pure)
  | field n base i ih =>
      have hown := hself h
      rw [Context.OwnAvoids] at hown
      rw [ofExpr, Expr.binders_field]
      cases hp : (Expr.field n base i).parameterPath? with
      | some qp =>
          rw [hp] at hown
          have hb := Expr.binders_of_parameterPath hp
          rw [Expr.binders_field] at hb
          rw [hb]
          exact .ofValue (.ofExcept hown)
      | none =>
          rw [hp] at hown
          refine .ofValue (.bind (.ofExcept hown) fun _ => .bind (Avoids.value ?_) fun _ => .pure)
          exact ih (hchild h hp (by simp [Expr.children])) hu
  | swizzle n base s ih =>
      have hbase := ih (hchild h rfl (by simp [Expr.children])) hu
      rw [Expr.binders_swizzle]
      exact .ofValue (.bind hbase.value fun _ => .pure)
  | cond n a b d iha ihb ihd =>
      simp only [Expr.unbound, Context.Spares, List.forall_mem_append] at hu
      have hinto (place : Place) :
          (choose (ofExpr c a) (ofExpr c b) (ofExpr c d) place).Avoids bad ids
            ((Expr.cond n a b d).binders ++ ids) := by
        refine .mono (avoids_choose (iha (hchild h rfl (by simp [Expr.children])) hu.1.1)
          (ihb (hchild h rfl (by simp [Expr.children])) hu.1.2)
          (ihd (hchild h rfl (by simp [Expr.children])) hu.2) place) ?_
        grind [Expr.binders_cond]
      exact .ofStatements (hself h) hinto hinto
  | bind n b value body ihv ihb =>
      obtain ⟨hty, hb⟩ := hself h
      simp only [Expr.unbound, Context.Spares, List.forall_mem_append] at hu
      have hinto (place : Place) : (letInto c b value body place).Avoids bad ids
          ((Expr.bind n b value body).binders ++ ids) := by
        refine .mono (.bind
          (avoids_declareLocal hb (ihv (hchild h rfl (by simp [Expr.children])) hu.1)) fun _ =>
          (ihb (hchild h rfl (by simp [Expr.children])) hu.2).into place) ?_
        grind [Expr.binders_bind]
      rw [ofExpr_bind]
      exact .ofStatements hty (fun place => .bind (.capture (hinto place)) fun _ => .emit) hinto

end Code

structure Routine.Avoids (bad : Error → Prop) (c : Context) (r : Routine) : Prop where
  params : ∀ b ∈ r.params, (c.ty b.ty).Avoids bad
  result : (c.ty r.result).Avoids bad
  body : ∀ x ∈ r.body.wholes, c.OwnAvoids bad x
  unbound : c.Spares bad (r.body.unbound (r.params.map Binding.id))

namespace Setting

variable {bad : Error → Prop} {g : Setting} {c : Context} {s : Progress} {ids : List Nat}

theorem avoids_lowerFields {fs : List Field} (h : ∀ f ∈ fs, (c.ty f.ty).Avoids bad)
    (supply : Supply) : (lowerFields c supply fs).Avoids bad := by
  induction fs generalizing supply with
  | nil => exact .ok
  | cons f fs ih =>
      obtain ⟨hf, hfs⟩ := List.forall_mem_cons.mp h
      exact hf.bind fun _ => (ih hfs _).bind fun _ => .ok

theorem avoids_lowerParams {bs : List Binding} (h : ∀ b ∈ bs, (c.ty b.ty).Avoids bad) :
    (lowerParams c bs).Avoids bad ids (bs.map Binding.id ++ ids) := by
  induction bs generalizing ids with
  | nil => exact .pure
  | cons b bs ih =>
      obtain ⟨hb, hbs⟩ := List.forall_mem_cons.mp h
      have hparam : (lowerParam c b).Avoids bad ids (b.id :: ids) :=
        .bind .fresh fun _ => .bind .bindLocal fun _ => .bind (.ofExcept hb) fun _ => .pure
      refine .mono (.bind hparam fun _ => .bind (ih hbs) fun _ => .pure) ?_
      grind

theorem avoids_declareFunction {r : Routine} (h : r.Avoids bad (g.context s)) (i : Nat) (t : Term) :
    (g.declareFunction s i t r.form r.params r.result r.body).Avoids bad := by
  have hparams : (lowerParams (g.context s) r.params).Avoids bad [] (r.params.map Binding.id) :=
    .mono (avoids_lowerParams h.params) (by simp)
  have hfunction := hparams.bind fun params => Emit.Avoids.bind (.ofExcept h.result) fun result =>
    Emit.Avoids.bind ((Code.avoids_ofExpr h.body h.unbound).into .result) fun _ =>
      (.pure : (Pure.pure (params, result) : Emit _).Avoids bad _ _)
  exact (hfunction.run _ nofun).bind fun _ => .ok

theorem avoids_declareExternal (N : Narrow bad g.shader.name) {i : Nat} {t : Term} {symbol : String}
    {signature : Signature} : (g.declareExternal s i t symbol signature).Avoids bad := by
  rw [declareExternal]
  cases g.table.resolve symbol signature.kind g.version g.shader.stage with
  | error e => exact .error (N.builtin e)
  | ok decision => cases decision <;> exact .ok

def OwnAvoids (bad : Error → Prop) (g : Setting) (s : Progress) : DeclId → Prop
  | .record i => ((g.context s).record i).Avoids bad ∧
      ∀ r, g.program.records[i]? = some r → ∀ f ∈ r.fields, ((g.context s).ty f.ty).Avoids bad
  | .term i => ((g.context s).term i).Avoids bad ∧
      ∀ t, g.program.terms[i]? = some t → ∀ r, Routine.ofKind? t.kind = some r →
        r.Avoids bad (g.context s)

theorem avoids_declare (N : Narrow bad g.shader.name) {d : DeclId} (h : g.OwnAvoids bad s d) :
    (g.declare s d).Avoids bad := by
  cases d with
  | record i =>
      refine h.1.bind_eq fun r hr => ?_
      have hr := Program.record_eq_ok.mp (Except.mapError_eq_ok.mp hr)
      exact (avoids_lowerFields (h.2 r hr) _).bind fun _ => .ok
  | term i =>
      refine h.1.bind_eq fun t ht => ?_
      have hroutine := h.2 t (Program.term_eq_ok.mp (Except.mapError_eq_ok.mp ht))
      cases hk : t.kind with
      | function params result body =>
          have hr : Routine.ofKind? t.kind = some ⟨.function, params, result, body⟩ := by rw [hk]; rfl
          exact avoids_declareFunction (hroutine _ hr) i t
      | value ty body =>
          have hr : Routine.ofKind? t.kind = some ⟨.value, [], ty, body⟩ := by rw [hk]; rfl
          exact avoids_declareFunction (hroutine _ hr) i t
      | external symbol signature => exact avoids_declareExternal N

theorem avoids_lowerSteps (N : Narrow bad g.shader.name) {steps : List Step}
    (hb : ∀ b value, .bind b value ∈ steps → (c.ty b.ty).Avoids bad)
    (h : ∀ step ∈ steps, ∀ x ∈ step.expr.wholes, c.OwnAvoids bad x)
    (hu : c.Spares bad (Step.unboundOf ids steps)) :
    (g.lowerSteps c steps).Avoids bad ids (steps.flatMap Step.binders ++ ids) := by
  induction steps generalizing ids with
  | nil => exact .pure
  | cons step steps ih =>
      have hbs (b : Binding) (value : Expr) (hmem : .bind b value ∈ steps) :=
        hb b value (List.mem_cons_of_mem _ hmem)
      obtain ⟨h, hs⟩ := List.forall_mem_cons.mp h
      obtain ⟨hu, hus⟩ := List.forall_mem_append.mp hu
      have hrest := ih hbs hs hus
      cases step with
      | bind b value =>
          have hlocal : (Code.declareLocal c b value.isBranching (Code.ofExpr c value)).Avoids bad
              ids (b.id :: (value.binders ++ ids)) :=
            Code.avoids_declareLocal (hb b value List.mem_cons_self) (Code.avoids_ofExpr h hu)
          refine .mono (.bind hlocal fun _ => hrest) ?_
          grind [Step.binders]
      | discard condition span =>
          have hdiscard := (Code.avoids_ofExpr h hu).value.bind fun x =>
            hrest.bind fun xs => (.pure : (Pure.pure (x :: xs) : Emit _).Avoids bad _ _)
          have hsub : (.discard condition span :: steps).flatMap Step.binders ++ ids ⊆
              steps.flatMap Step.binders ++ (condition.binders ++ ids) := by
            grind [Step.binders]
          rw [lowerSteps]
          split
          · exact .mono (.bind (.error (N.plain .vertexDiscard rfl)) fun _ => hdiscard) hsub
          · exact .mono hdiscard hsub

theorem avoids_sink (N : Narrow bad g.shader.name) {output : Output} {ident : String} :
    (g.sink output ident).Avoids bad := by
  rw [sink]
  split
  · exact .ok
  · exact .ok
  · exact .ok
  · split
    · exact .ok
    · split <;> exact .ok
  · exact .error (N.plain _ rfl)

theorem avoids_lowerAssignment (N : Narrow bad g.shader.name) {a : Assignment}
    (h : ∀ x ∈ a.value.wholes, c.OwnAvoids bad x) (hu : c.Spares bad (a.value.unbound ids)) :
    (g.lowerAssignment c a).Avoids bad ids (a.value.binders ++ ids) := by
  rw [lowerAssignment]
  split
  · exact .error (N.plain (.undeclaredOutput a.output) rfl)
  · split
    · exact .error (N.plain (.recordOutput _) rfl)
    · exact .bind (Code.avoids_ofExpr h hu).value fun _ =>
        .bind (.ofExcept (avoids_sink N)) fun _ => .pure

theorem avoids_lowerAssignments (N : Narrow bad g.shader.name) {as : List Assignment}
    (h : ∀ a ∈ as, ∀ x ∈ a.value.wholes, c.OwnAvoids bad x)
    (hu : c.Spares bad (Expr.unboundOf ids (as.map Assignment.value))) :
    (g.lowerAssignments c as).Avoids bad ids (as.flatMap (fun a => a.value.binders) ++ ids) := by
  induction as generalizing ids with
  | nil => exact .pure
  | cons a as ih =>
      obtain ⟨ha, has⟩ := List.forall_mem_cons.mp h
      obtain ⟨hu, hus⟩ := List.forall_mem_append.mp hu
      refine .mono (.bind (avoids_lowerAssignment N ha hu) fun _ =>
        .bind (ih has hus) fun _ => .pure) ?_
      grind

theorem avoids_lowerMain (N : Narrow bad g.shader.name)
    (hb : ∀ b value, .bind b value ∈ g.shader.steps → ((g.context s).ty b.ty).Avoids bad)
    (h : ∀ e ∈ g.shader.exprs, ∀ x ∈ e.wholes, (g.context s).OwnAvoids bad x)
    (hu : (g.context s).Spares bad g.shader.unbound) : (g.lowerMain s).Avoids bad := by
  simp only [Shader.exprs, List.forall_mem_append, List.forall_mem_map] at h
  obtain ⟨hu, hus⟩ := List.forall_mem_append.mp hu
  rw [← List.append_nil (g.shader.steps.flatMap Step.binders)] at hus
  have hbody := (avoids_lowerSteps N hb h.1 hu).bind fun xs =>
    (avoids_lowerAssignments N h.2 hus).bind fun ws =>
      (.pure : (Pure.pure (xs, ws) : Emit _).Avoids bad _ _)
  refine (hbody.run _ nofun).bind fun done => ?_
  cases g.shader.stage with
  | fragment => exact .ok
  | vertex =>
      simp only
      split
      · exact .ok
      · exact .error (N.plain _ rfl)

theorem avoids_inputVars (N : Narrow bad g.shader.name) : g.inputVars.Avoids bad := by
  refine .mapM fun (input, ident) _ => ?_
  simp only [inputVar]
  split
  · exact .error (N.plain _ rfl)
  · exact .ok

theorem avoids_outputVars (N : Narrow bad g.shader.name) : g.outputVars.Avoids bad := by
  refine .bind (.mapM fun output _ => ?_) fun _ => .ok
  refine (avoids_sink N).bind fun sink => ?_
  split
  · split
    · exact .error (N.plain _ rfl)
    · exact .ok
  · exact .ok

end Setting

theorem avoids_lower {bad : Error → Prop} {p : Program} {s : Shader} {closure : Closure}
    {v : Version} {table : Table} (N : Narrow bad s.name)
    (hassign :
      ((Interface.assign p s (.forShader table.nativeNames)).mapError Error.fault).Avoids bad)
    (hdeclare : ∀ interface supply,
      (Setting.declareAll ⟨p, s, v, table, interface⟩ supply closure).Avoids bad)
    (hmain : ∀ interface supply progress,
      Setting.declareAll ⟨p, s, v, table, interface⟩ supply closure = .ok progress →
        (Setting.lowerMain ⟨p, s, v, table, interface⟩ progress).Avoids bad) :
    (lower p s closure v table).Avoids bad := by
  refine hassign.bind fun (interface, supply) => ?_
  refine (hdeclare interface supply).bind_eq fun progress hp => ?_
  refine (hmain interface supply progress hp).bind fun main => ?_
  exact (Setting.avoids_inputVars N).bind fun _ => (Setting.avoids_outputVars N).bind fun _ => .ok

theorem Routine.unbound {k : TermKind} {r : Routine} (hr : ofKind? k = some r) :
    k.unbound = r.body.unbound (r.params.map Binding.id) := by
  cases k with
  | function params result body | value ty body =>
      cases hr
      rfl
  | external symbol signature => cases hr

def bodyOf? (p : Program) : DeclId → Option Expr
  | .record _ => none
  | .term i => do return (← Routine.ofKind? (← p.terms[i]?).kind).body

/-- What the code of a shader is made from: its own expressions and the bodies of the closure. -/
def sources (p : Program) (s : Shader) (closure : Closure) : List Expr :=
  s.exprs ++ closure.order.filterMap (bodyOf? p)

theorem bodyOf?_eq_some {p : Program} {d : DeclId} {e : Expr} :
    bodyOf? p d = some e ↔ ∃ i t r, d = .term i ∧ p.terms[i]? = some t ∧
      Routine.ofKind? t.kind = some r ∧ r.body = e := by
  cases d with
  | record i => simp [bodyOf?]
  | term i => simp [bodyOf?, Option.bind_eq_some_iff]

/-- Errors that are not about references arise in the nodes of the code, and where it reads a local
that is not bound. -/
theorem avoids_lower_of_inner {bad : Error → Prop} {p : Program} {s : Shader} {closure : Closure}
    (I : Inner bad s.name)
    (hown : ∀ c : Context, c.program = p → c.shader = s → ∀ e ∈ sources p s closure,
      ∀ x ∈ e.wholes, c.OwnAvoids bad x)
    (hs : ∀ id ∈ s.unbound, ¬ bad (.malformed s.name (.unboundLocal id)))
    (ht : ∀ i t, .term i ∈ closure.order → p.terms[i]? = some t →
      ∀ id ∈ t.kind.unbound, ¬ bad (.malformed s.name (.unboundLocal id)))
    (v : Version) (table : Table) : (lower p s closure v table).Avoids bad := by
  have hty (c : Context) (hc : c.shader = s) (ty : Ty) : (c.ty ty).Avoids bad :=
    (Context.finds_of_inner (hc ▸ I)).ty fun _ _ => trivial
  refine avoids_lower I.toNarrow (I.avoids_fault _) (fun interface supply => ?_) ?_
  · refine Except.Avoids.foldlM (motive := fun _ _ => True) trivial fun pre d post progress ho _ => ?_
    refine ⟨Setting.avoids_declare I.toNarrow ?_, fun _ _ => trivial⟩
    cases d with
    | record i => exact ⟨I.avoids_fault _, fun r _ f _ => hty _ rfl f.ty⟩
    | term i =>
        have hi : .term i ∈ closure.order := ho ▸ List.mem_append_right _ List.mem_cons_self
        refine ⟨I.avoids_fault _, fun t htm r hr => ⟨fun b _ => hty _ rfl b.ty, hty _ rfl _, ?_, ?_⟩⟩
        · exact hown _ rfl rfl _ (List.mem_append_right _ (List.mem_filterMap.mpr
            ⟨.term i, hi, bodyOf?_eq_some.mpr ⟨i, t, r, rfl, htm, hr, rfl⟩⟩))
        · exact fun id hid => ht i t hi htm id (Routine.unbound hr ▸ hid)
  · intro interface supply progress _
    exact Setting.avoids_lowerMain I.toNarrow (fun b _ _ => hty _ rfl b.ty)
      (fun e he => hown _ rfl rfl e (List.mem_append_left _ he)) hs

end ShaderDialects.Lowering
