import ShaderDialects.Proofs.Lowering.Scope
import ShaderDialects.Proofs.Meaning.Realized

namespace ShaderDialects.Lowering

open Dialect (Env Outcome Stmt)
open Identifier (Supply)
open Value (HasTys)

variable {α : Type}

def Scope.Le (σ σ' : Scope) : Prop := ∀ n, σ.supply.Knows n → σ'.supply.Knows n

/-- The entries are new in `σ` and named in `σ'`. -/
def Grows (σ σ' : Scope) (news : Env α) : Prop :=
  ∀ n ∈ news.names, ¬ σ.supply.Knows n ∧ σ'.supply.Knows n

/-- However the environment is extended by names that are new in `σ`, `f` gives the same. -/
def Stable {β : Type} (σ : Scope) (env : Env α) (f : Env α → β) (result : β) : Prop :=
  ∀ more : Env α, (∀ n ∈ more.names, ¬ σ.supply.Knows n) → f (more ++ env) = result

section Grows

variable {σ σ₁ σ₂ : Scope} {env news news₁ : Env α}

theorem Grows.nil (σ σ' : Scope) : Grows σ σ' ([] : Env α) := by
  simp [Grows, Env.names]

theorem Grows.append (h₁ : Grows σ₁ σ₂ news₁) (h : Grows σ σ₁ news) (hl : σ.Le σ₁)
    (hl₁ : σ₁.Le σ₂) : Grows σ σ₂ (news₁ ++ news) := by
  intro n hn
  rw [Env.names, List.map_append] at hn
  rcases List.mem_append.mp hn with hn | hn
  · exact ⟨fun hk => (h₁ n hn).1 (hl n hk), (h₁ n hn).2⟩
  · exact ⟨(h n hn).1, hl₁ n (h n hn).2⟩

theorem Grows.cons (h : Grows σ₁ σ₂ news) {name : String} {x : Dialect.Entity α}
    (hn : ¬ σ.supply.Knows name) (hn' : σ₁.supply.Knows name) (hl : σ.Le σ₁) (hl₁ : σ₁.Le σ₂) :
    Grows σ σ₂ (news ++ [(name, x)]) := by
  refine h.append (fun n hmem => ?_) hl hl₁
  obtain rfl : n = name := by simpa [Env.names] using hmem
  exact ⟨hn, hn'⟩

theorem Grows.not_mem (h : Grows σ σ₁ news) {n : String} (hn : σ.supply.Knows n) :
    n ∉ news.names := fun hmem => (h n hmem).1 hn

theorem Stable.here {β : Type} {f : Env α → β} {result : β} (h : Stable σ env f result) :
    f env = result := h [] (by simp [Env.names])

theorem Stable.grow {β : Type} {f : Env α → β} {result : β} (h : Stable σ env f result)
    (hg : Grows σ σ₁ news) (hl : σ.Le σ₁) : Stable σ₁ (news ++ env) f result := by
  intro more hmore
  rw [← List.append_assoc]
  refine h (more ++ news) fun n hn => ?_
  rw [Env.names, List.map_append] at hn
  rcases List.mem_append.mp hn with hn | hn
  · exact fun hk => hmore n hn (hl n hk)
  · exact (hg n hn).1

end Grows

def Place.Completes (env : Env α) (σ σ' : Scope) (v : Dialect.Val α) : Place → Outcome α → Prop
  | result, o => o = .returned v
  | assign name, o => ∃ news env', o = .next (news ++ env') ∧ env.assign name v = some env' ∧
      Grows σ σ' news

def Place.Ready (base : Supply) (σ : Scope) (env : Env α) : Place → Prop
  | result => True
  | assign name => ¬ base.Knows name ∧ σ.supply.Knows name ∧ env.lookup name = some (.variable none)

namespace Place

variable {base : Supply} {place : Place} {σ σ₁ σ₂ : Scope} {env news : Env α}
  {v : Dialect.Val α} {o : Outcome α}

theorem Ready.grow (h : place.Ready base σ env) (hg : Grows σ σ₁ news) (hl : σ.Le σ₁) :
    place.Ready base σ₁ (news ++ env) := by
  cases place with
  | result => trivial
  | assign name =>
      obtain ⟨hb, hk, hv⟩ := h
      exact ⟨hb, hl _ hk, by rw [Env.lookup_append_of_not_mem (hg.not_mem hk), hv]⟩

theorem Completes.leave (h : place.Completes env σ σ₁ v o) (σ' σ₂ : Scope) :
    place.Completes env σ' σ₂ v (o.leave env) := by
  cases place with
  | result =>
      cases h
      rfl
  | assign name =>
      obtain ⟨news, env', rfl, ha, _⟩ := h
      refine ⟨[], env', ?_, ha, Grows.nil _ _⟩
      simp [Outcome.leave, Env.length_assign ha]

theorem Completes.grow (h : place.Completes (news ++ env) σ₁ σ₂ v o)
    (hr : place.Ready base σ env) (hg : Grows σ σ₁ news) (hl : σ.Le σ₁) (hl₁ : σ₁.Le σ₂) :
    place.Completes env σ σ₂ v o := by
  cases place with
  | result => exact h
  | assign name =>
      obtain ⟨news₁, env₁, rfl, ha, hg₁⟩ := h
      rw [Env.assign_append (hg.not_mem hr.2.1)] at ha
      obtain ⟨env', ha', rfl⟩ := Option.map_eq_some_iff.mp ha
      exact ⟨news₁ ++ news, env', by rw [List.append_assoc], ha', hg₁.append hg hl hl₁⟩

theorem Completes.declared {name : String}
    (h : (assign name).Completes ((name, .variable none) :: env) σ σ₁ v o) :
    ∃ news, o = .next (news ++ (name, .variable (some v)) :: env) ∧ Grows σ σ₁ news := by
  obtain ⟨news, env', rfl, ha, hg⟩ := h
  rw [Env.assign_cons_self] at ha
  cases ha
  exact ⟨news, rfl, hg⟩

end Place

/-- The environment holds the values of the locals in scope, and hides nothing named by `base`. -/
structure Matches (w : World α) (base : Supply) (globals : Env α) (σ : Scope)
    (Γ : List (Nat × Ty)) (locals : List (Nat × Val α)) (env : Env α) : Prop where
  known : ∀ n, base.Knows n → σ.supply.Knows n
  above : env.Above base globals
  locals : ∀ id ty, Γ.lookup id = some ty → ∃ v name, locals.lookup id = some v ∧
    v.HasTy w.program ty ∧ σ.locals.lookup id = some name ∧ σ.supply.Knows name ∧
      env.lookup name = some (.variable (some (w.image v)))

namespace Matches

variable {w : World α} {base : Supply} {globals : Env α} {σ σ₁ : Scope} {Γ : List (Nat × Ty)}
  {locals : List (Nat × Val α)} {env news : Env α} (M : Matches w base globals σ Γ locals env)
include M

theorem typedLocals : TypedLocals w.program Γ locals := by
  intro id ty h
  obtain ⟨v, _, hv, ht, _⟩ := M.locals id ty h
  exact ⟨v, hv, ht⟩

theorem above_append {more : Env α} (hmore : ∀ n ∈ more.names, ¬ σ.supply.Knows n) :
    Env.Above (more ++ env) base globals := by
  intro n hn
  rw [Env.lookup_append_of_not_mem fun h => hmore n h (M.known n hn), M.above n hn]

theorem above_grow (hg : Grows σ σ₁ news) (hl : σ.Le σ₁) {more : Env α}
    (hmore : ∀ n ∈ more.names, ¬ σ₁.supply.Knows n) :
    Env.Above (more ++ (news ++ env)) base globals := by
  rw [← List.append_assoc]
  refine M.above_append fun n hn => ?_
  rw [Env.names, List.map_append] at hn
  rcases List.mem_append.mp hn with hn | hn
  · exact fun hk => hmore n hn (hl n hk)
  · exact (hg n hn).1

theorem grow (hg : Grows σ σ₁ news) (hl : σ.Le σ₁)
    (hlocals : ∀ id ty, Γ.lookup id = some ty → σ₁.locals.lookup id = σ.locals.lookup id) :
    Matches w base globals σ₁ Γ locals (news ++ env) := by
  refine ⟨fun n hn => hl n (M.known n hn), M.above_append fun n hn => (hg n hn).1, ?_⟩
  intro id ty h
  obtain ⟨v, name, hv, ht, hname, hk, he⟩ := M.locals id ty h
  refine ⟨v, name, hv, ht, (hlocals id ty h).trans hname, hl name hk, ?_⟩
  rw [Env.lookup_append_of_not_mem (hg.not_mem hk), he]

theorem declare {name : String} (hn : ¬ σ.supply.Knows name) (hn₁ : σ₁.supply.Knows name)
    (hl : σ.Le σ₁) (hlocals : σ₁.locals = σ.locals) :
    (Place.assign name).Ready base σ₁ ((name, .variable none) :: env) ∧
      Matches w base globals σ₁ Γ locals ((name, .variable none) :: env) := by
  have hg : Grows σ σ₁ [(name, (.variable none : Dialect.Entity α))] := by
    simp [Grows, Env.names, hn, hn₁]
  exact ⟨⟨fun hb => hn (M.known _ hb), hn₁, by simp⟩, M.grow hg hl fun _ _ _ => by rw [hlocals]⟩

theorem extend (hg : Grows σ σ₁ news) (hl : σ.Le σ₁) {b : Binding} {v : Val α}
    (ht : v.HasTy w.program b.ty) {name : String} (hname : σ₁.locals.lookup b.id = some name)
    (hk : σ₁.supply.Knows name)
    (he : (news ++ env).lookup name = some (.variable (some (w.image v))))
    (hlocals : ∀ id ty, id ≠ b.id → Γ.lookup id = some ty →
      σ₁.locals.lookup id = σ.locals.lookup id) :
    Matches w base globals σ₁ ((b.id, b.ty) :: Γ) ((b.id, v) :: locals) (news ++ env) := by
  refine ⟨fun n hn => hl n (M.known n hn), M.above_append fun n hn => (hg n hn).1, ?_⟩
  intro id ty h
  by_cases hid : id = b.id
  · subst hid
    obtain rfl : b.ty = ty := by simpa using h
    exact ⟨v, name, by simp, ht, hname, hk, he⟩
  · rw [List.lookup_cons, beq_false_of_ne hid] at h
    obtain ⟨u, n, hu, htu, hn, hkn, hen⟩ := M.locals id ty h
    refine ⟨u, n, ?_, htu, (hlocals id ty hid h).trans hn, hl n hkn, ?_⟩
    · rw [List.lookup_cons, beq_false_of_ne hid]
      exact hu
    · rw [Env.lookup_append_of_not_mem (hg.not_mem hkn), hen]

end Matches

section Simulated

variable (w : World α) (m : Meaning α)

/-- Run from `env`, the statements either get stuck, as the source does, or put new entries in front
of it so that `post` holds. -/
def Advances (env : Env α) (σ : Scope) (ss : List Stmt) (σ' : Scope) (stuck : Prop)
    (post : Env α → Prop) : Prop :=
  (Stmt.execAll w.interpretation env ss = none ∧ stuck) ∨
    ∃ news, Stmt.execAll w.interpretation env ss = some (.next (news ++ env)) ∧
      Grows σ σ' news ∧ post (news ++ env)

/-- What the statements of a task do is what the source means. -/
def Task.Simulated (locals : List (Nat × Val α)) (env : Env α) (σ : Scope) (ss : List Stmt)
    (σ' : Scope) : Task → Prop
  | value e x =>
      Advances w env σ ss σ' (e.eval w m locals = none) fun env' =>
        Stable σ' env' (x.eval w.interpretation) ((e.eval w m locals).map w.image)
  | values es xs =>
      Advances w env σ ss σ' (Expr.evalAll w m locals es = none) fun env' =>
        Stable σ' env' (Dialect.Expr.evalAll w.interpretation · xs)
          ((Expr.evalAll w m locals es).map (List.map w.image))
  | into e place =>
      (Stmt.execAll w.interpretation env ss = none ∧ e.eval w m locals = none) ∨
        ∃ v o, e.eval w m locals = some v ∧ Stmt.execAll w.interpretation env ss = some o ∧
          place.Completes env σ σ' (w.image v) o
  | declare b e =>
      Advances w env σ ss σ' (e.eval w m locals = none) fun env' =>
        ∃ v name, e.eval w m locals = some v ∧ σ'.locals.lookup b.id = some name ∧
          σ'.supply.Knows name ∧ env'.lookup name = some (.variable (some (w.image v)))

def Task.Valid (p : Program) (s : Shader) (ds : List DeclId) (Γ : List (Nat × Ty)) : Task → Prop
  | value e _ | into e _ => e.Valid p s ds Γ
  | values es _ => ∀ e ∈ es, e.Valid p s ds Γ
  | declare b e => e.Valid p s ds Γ ∧ e.ty = b.ty

def Task.Ready (base : Supply) (σ : Scope) (env : Env α) : Task → Prop
  | into _ place => place.Ready base σ env
  | _ => True

end Simulated

variable {w : World α} {m : Meaning α} {locals : List (Nat × Val α)} {env : Env α}
  {σ σ₁ σ₂ : Scope} {ss : List Stmt} {stuck stuck' : Prop} {post post' : Env α → Prop}

theorem Advances.mono (h : Advances w env σ ss σ₁ stuck post) (hs : stuck → stuck')
    (hp : ∀ news, Grows σ σ₁ news → post (news ++ env) → post' (news ++ env)) :
    Advances w env σ ss σ₁ stuck' post' := by
  rcases h with ⟨hx, h⟩ | ⟨news, hx, hg, h⟩
  · exact .inl ⟨hx, hs h⟩
  · exact .inr ⟨news, hx, hg, hp news hg h⟩

theorem Advances.append {rest : List Stmt} (h : Advances w env σ ss σ₁ stuck post)
    (hs : stuck → stuck') (hl : σ.Le σ₁) (hl₁ : σ₁.Le σ₂)
    (hrest : ∀ news, Grows σ σ₁ news → post (news ++ env) →
      Advances w (news ++ env) σ₁ rest σ₂ stuck' post') :
    Advances w env σ (ss ++ rest) σ₂ stuck' post' := by
  rcases h with ⟨hx, h⟩ | ⟨news, hx, hg, h⟩
  · exact .inl ⟨Stmt.execAll_append_of_none _ hx rest, hs h⟩
  · rw [Advances, Stmt.execAll_append_of_next _ hx]
    rcases hrest news hg h with h | ⟨news₁, hx₁, hg₁, h₁⟩
    · exact .inl h
    · rw [← List.append_assoc] at hx₁ h₁
      exact .inr ⟨news₁ ++ news, hx₁, hg₁.append hg hl hl₁, h₁⟩

theorem simulated_pure {e : Expr} {x : Dialect.Expr}
    (h : ∀ more : Env α, (∀ n ∈ more.names, ¬ σ.supply.Knows n) →
      x.eval w.interpretation (more ++ env) = (e.eval w m locals).map w.image) :
    (Task.value e x).Simulated w m locals env σ [] σ :=
  .inr ⟨[], rfl, Grows.nil _ _, h⟩

/-- An expression that needs no statements beyond those of its operands. -/
theorem simulated_values {e : Expr} {x : Dialect.Expr} {es : List Expr} {xs : List Dialect.Expr}
    (h : (Task.values es xs).Simulated w m locals env σ ss σ₁)
    (hs : Expr.evalAll w m locals es = none → e.eval w m locals = none)
    (hx : ∀ news more : Env α, Grows σ σ₁ news → (∀ n ∈ more.names, ¬ σ₁.supply.Knows n) →
      Dialect.Expr.evalAll w.interpretation (more ++ (news ++ env)) xs
        = (Expr.evalAll w m locals es).map (List.map w.image) →
      x.eval w.interpretation (more ++ (news ++ env)) = (e.eval w m locals).map w.image) :
    (Task.value e x).Simulated w m locals env σ ss σ₁ := by
  simp only [Task.Simulated] at h ⊢
  refine h.mono hs fun news hg hstable => ?_
  exact fun more hmore => hx news more hg hmore (hstable more hmore)

theorem simulated_operand {e operand : Expr} {x y : Dialect.Expr}
    (h : (Task.value operand y).Simulated w m locals env σ ss σ₁)
    (hs : operand.eval w m locals = none → e.eval w m locals = none)
    (hx : ∀ env : Env α, y.eval w.interpretation env = (operand.eval w m locals).map w.image →
      x.eval w.interpretation env = (e.eval w m locals).map w.image) :
    (Task.value e x).Simulated w m locals env σ ss σ₁ := by
  rw [Task.Simulated] at h ⊢
  refine h.mono hs fun _ _ hstable => ?_
  exact fun more hmore => hx _ (hstable more hmore)

theorem advances_declare {e : Expr} {name : String} (ty : Dialect.Ty)
    (hn : ¬ σ.supply.Knows name) (hn₁ : σ₁.supply.Knows name) (hl : σ.Le σ₁) (hl₁ : σ₁.Le σ₂)
    (h : (Task.into e (.assign name)).Simulated w m locals ((name, .variable none) :: env)
      σ₁ ss σ₂) :
    Advances w env σ (.declare name ty none :: ss) σ₂ (e.eval w m locals = none) fun env' =>
      ∃ v, e.eval w m locals = some v ∧
        Stable σ₂ env' (List.lookup name) (some (.variable (some (w.image v)))) := by
  have hx : Stmt.execAll w.interpretation env (.declare name ty none :: ss)
      = Stmt.execAll w.interpretation ((name, .variable none) :: env) ss := rfl
  rw [Advances, hx]
  rcases h with h | ⟨v, o, hv, ho, hc⟩
  · exact .inl h
  · obtain ⟨news, rfl, hg⟩ := hc.declared
    refine .inr ⟨news ++ [(name, .variable (some (w.image v)))], ?_, hg.cons hn hn₁ hl hl₁, v, hv, ?_⟩
    · rw [ho, List.append_assoc, List.singleton_append]
    · intro more hmore
      rw [List.append_assoc news, List.singleton_append,
        Env.lookup_append_of_not_mem fun hmem => hmore name hmem (hl₁ name hn₁),
        Env.lookup_append_of_not_mem (hg.not_mem hn₁)]
      simp

theorem simulated_hoist {e : Expr} {name : String} (ty : Dialect.Ty)
    (hn : ¬ σ.supply.Knows name) (hn₁ : σ₁.supply.Knows name) (hl : σ.Le σ₁) (hl₁ : σ₁.Le σ₂)
    (h : (Task.into e (.assign name)).Simulated w m locals ((name, .variable none) :: env)
      σ₁ ss σ₂) :
    (Task.value e (.var name)).Simulated w m locals env σ (.declare name ty none :: ss) σ₂ := by
  rw [Task.Simulated]
  refine (advances_declare ty hn hn₁ hl hl₁ h).mono id ?_
  rintro news hg ⟨v, hv, hstable⟩ more hmore
  change Env.read _ name = _
  rw [Env.read, hstable more hmore, hv]
  rfl

theorem simulated_assignLocal {b : Binding} {e : Expr} {name : String} (ty : Dialect.Ty)
    (hn : ¬ σ.supply.Knows name) (hn₁ : σ₁.supply.Knows name) (hl : σ.Le σ₁) (hl₁ : σ₁.Le σ₂)
    (h : (Task.into e (.assign name)).Simulated w m locals ((name, .variable none) :: env)
      σ₁ ss σ₂) :
    (Task.declare b e).Simulated w m locals env σ (.declare name ty none :: ss)
      (σ₂.bind b.id name) := by
  rcases advances_declare ty hn hn₁ hl hl₁ h with h | ⟨news, hx, hg, v, hv, hstable⟩
  · exact .inl h
  · exact .inr ⟨news, hx, hg, v, name, hv, by simp, hl₁ name hn₁, hstable.here⟩

theorem simulated_block {e : Expr} {place : Place}
    (h : (Task.into e place).Simulated w m locals env σ ss σ₁) :
    (Task.into e place).Simulated w m locals env σ [.block ss] σ₁ := by
  have hx : Stmt.execAll w.interpretation env [.block ss]
      = (Stmt.execAll w.interpretation env ss).map (·.leave env) := by
    rw [Stmt.execAll_singleton, Stmt.exec]
  rcases h with ⟨hs, hv⟩ | ⟨v, o, hv, ho, hc⟩
  · exact .inl ⟨by rw [hx, hs]; rfl, hv⟩
  · exact .inr ⟨v, o.leave env, hv, by rw [hx, ho]; rfl, hc.leave _ _⟩

theorem simulated_write {base : Supply} {e : Expr} {x : Dialect.Expr} {place : Place}
    (h : (Task.value e x).Simulated w m locals env σ ss σ₁) (hr : place.Ready base σ env)
    (hl : σ.Le σ₁) :
    (Task.into e place).Simulated w m locals env σ (ss ++ [place.write x]) σ₁ := by
  rcases h with ⟨hs, hv⟩ | ⟨news, hs, hg, hx⟩
  · exact .inl ⟨Stmt.execAll_append_of_none _ hs _, hv⟩
  · have hx : x.eval w.interpretation (news ++ env) = _ := hx.here
    rw [Task.Simulated, Stmt.execAll_append_of_next _ hs, Stmt.execAll_singleton]
    cases hv : e.eval w m locals with
    | none =>
        rw [hv] at hx
        refine .inl ⟨?_, rfl⟩
        cases place <;> simp [Place.write, Stmt.exec, hx]
    | some v =>
        rw [hv] at hx
        cases place with
        | result => exact .inr ⟨v, _, rfl, by simp [Place.write, Stmt.exec, hx], rfl⟩
        | assign name =>
            obtain ⟨env', ha⟩ := Env.assign_of_lookup (hr.grow hg hl).2.2 (w.image v)
            have hc : (Place.assign name).Completes (news ++ env) σ₁ σ₁ (w.image v) (.next env') :=
              ⟨[], env', rfl, ha, Grows.nil _ _⟩
            exact .inr ⟨v, .next env', rfl, by simp [Place.write, Stmt.exec, hx, ha],
              hc.grow hr hg hl fun _ hn => hn⟩

theorem simulated_branch {base : Supply} {e : Expr} {place : Place} {news : Env α} {σ₃ : Scope}
    (h : (Task.into e place).Simulated w m locals (news ++ env) σ₁ ss σ₂)
    (hr : place.Ready base σ env) (hg : Grows σ σ₁ news) (hl : σ.Le σ₁) (hl₁ : σ₁.Le σ₃) :
    ((Stmt.execAll w.interpretation (news ++ env) ss).map (·.leave (news ++ env)) = none ∧
        e.eval w m locals = none) ∨
      ∃ v o, e.eval w m locals = some v ∧
        (Stmt.execAll w.interpretation (news ++ env) ss).map (·.leave (news ++ env)) = some o ∧
          place.Completes env σ σ₃ (w.image v) o := by
  rcases h with ⟨hs, hv⟩ | ⟨v, o, hv, ho, hc⟩
  · exact .inl ⟨by rw [hs]; rfl, hv⟩
  · have hleave := hc.leave σ₁ σ₃
    exact .inr ⟨v, _, hv, by rw [ho]; rfl, hleave.grow hr hg hl hl₁⟩

theorem simulated_choose {base : Supply} {n : Note} {a b d : Expr} {x : Dialect.Expr}
    {place : Place} {σ₃ : Scope} {accept reject : List Stmt}
    (hc : (Task.value a x).Simulated w m locals env σ ss σ₁)
    (ht : ∀ v, a.eval w m locals = some v → ∃ leaf, v = .leaf leaf)
    (ha : ∀ news, Grows σ σ₁ news →
      (Task.into b place).Simulated w m locals (news ++ env) σ₁ accept σ₂)
    (hd : ∀ news, Grows σ σ₂ news →
      (Task.into d place).Simulated w m locals (news ++ env) σ₂ reject σ₃)
    (hr : place.Ready base σ env) (hl : σ.Le σ₁) (hl₁ : σ₁.Le σ₂) (hl₂ : σ₂.Le σ₃) :
    (Task.into (.cond n a b d) place).Simulated w m locals env σ
      (ss ++ [.cond x accept reject]) σ₃ := by
  rcases hc with ⟨hs, hv⟩ | ⟨news, hs, hg, hx⟩
  · exact .inl ⟨Stmt.execAll_append_of_none _ hs _, by simp [Expr.eval, hv]⟩
  · have hx : x.eval w.interpretation (news ++ env) = _ := hx.here
    rw [Task.Simulated, Stmt.execAll_append_of_next _ hs, Stmt.execAll_singleton, Stmt.exec,
      Dialect.Expr.evalLeaf, hx, Expr.eval]
    cases hv : a.eval w m locals with
    | none => exact .inl ⟨rfl, rfl⟩
    | some v =>
        obtain ⟨leaf, rfl⟩ := ht v hv
        have hg₂ : Grows σ σ₂ news := fun n hn => ⟨(hg n hn).1, hl₁ n (hg n hn).2⟩
        have hle : σ.Le σ₂ := fun n hn => hl₁ n (hl n hn)
        by_cases hb : w.interpretation.truth leaf = true
        · simpa [Value.leaf?, hb] using
            simulated_branch (ha news hg) hr hg hl fun n hn => hl₂ n (hl₁ n hn)
        · simpa [Value.leaf?, hb] using simulated_branch (hd news hg₂) hr hg₂ hle hl₂

theorem simulated_initLocal {b : Binding} {value : Expr} {x : Dialect.Expr} {name : String}
    (ty : Dialect.Ty) (hn : ¬ σ.supply.Knows name) (hn₁ : σ₁.supply.Knows name)
    (hl : σ.Le σ₁) (hl₁ : σ₁.Le σ₂)
    (h : (Task.value value x).Simulated w m locals env σ₁ ss σ₂) :
    (Task.declare b value).Simulated w m locals env σ (ss ++ [.declare name ty (some x)])
      (σ₂.bind b.id name) := by
  rcases h with ⟨hs, hv⟩ | ⟨news, hs, hg, hx⟩
  · exact .inl ⟨Stmt.execAll_append_of_none _ hs _, hv⟩
  · have hx : x.eval w.interpretation (news ++ env) = _ := hx.here
    rw [Task.Simulated, Advances, Stmt.execAll_append_of_next _ hs, Stmt.execAll_singleton,
      Stmt.exec, hx]
    cases hv : value.eval w m locals with
    | none => exact .inl ⟨rfl, rfl⟩
    | some v =>
        refine .inr ⟨(name, .variable (some (w.image v))) :: news, rfl, fun n hmem => ?_, v, name,
          rfl, by simp, hl₁ name hn₁, by simp⟩
        rcases List.mem_cons.mp hmem with rfl | hmem
        · exact ⟨hn, hl₁ _ hn₁⟩
        · exact ⟨fun hk => (hg n hmem).1 (hl n hk), (hg n hmem).2⟩

theorem simulated_cons {e : Expr} {es : List Expr} {x : Dialect.Expr} {xs : List Dialect.Expr}
    {rest : List Stmt} (h : (Task.value e x).Simulated w m locals env σ ss σ₁) (hl : σ.Le σ₁)
    (hl₁ : σ₁.Le σ₂)
    (hrest : ∀ news, Grows σ σ₁ news →
      (Task.values es xs).Simulated w m locals (news ++ env) σ₁ rest σ₂) :
    (Task.values (e :: es) (x :: xs)).Simulated w m locals env σ (ss ++ rest) σ₂ := by
  simp only [Task.Simulated] at h hrest ⊢
  refine h.append (fun hs => by simp [Expr.evalAll, hs]) hl hl₁ fun news hg hx => ?_
  refine (hrest news hg).mono (fun hs => by simp [Expr.evalAll, hs]) fun news₁ hg₁ hxs => ?_
  intro more hmore
  have hhead : x.eval w.interpretation (more ++ (news₁ ++ (news ++ env))) = _ :=
    hx.grow hg₁ hl₁ more hmore
  have htail : Dialect.Expr.evalAll w.interpretation (more ++ (news₁ ++ (news ++ env))) xs = _ :=
    hxs more hmore
  simp only [Dialect.Expr.evalAll, Expr.evalAll, hhead, htail]
  cases e.eval w m locals <;> cases Expr.evalAll w m locals es <;> rfl

theorem simulated_bind {base : Supply} {n : Note} {b : Binding} {value body : Expr}
    {place : Place} {rest : List Stmt}
    (h : (Task.declare b value).Simulated w m locals env σ ss σ₁) (hr : place.Ready base σ env)
    (hl : σ.Le σ₁) (hl₁ : σ₁.Le σ₂)
    (hbody : ∀ news v name, Grows σ σ₁ news → value.eval w m locals = some v →
      σ₁.locals.lookup b.id = some name → σ₁.supply.Knows name →
      (news ++ env).lookup name = some (.variable (some (w.image v))) →
      (Task.into body place).Simulated w m ((b.id, v) :: locals) (news ++ env) σ₁ rest σ₂) :
    (Task.into (.bind n b value body) place).Simulated w m locals env σ (ss ++ rest) σ₂ := by
  rcases h with ⟨hs, hv⟩ | ⟨news, hs, hg, v, name, hv, hname, hk, he⟩
  · exact .inl ⟨Stmt.execAll_append_of_none _ hs _, by simp [Expr.eval, hv]⟩
  · have heval : (Expr.bind n b value body).eval w m locals
        = body.eval w m ((b.id, v) :: locals) := by
      simp [Expr.eval, hv]
    rw [Task.Simulated, Stmt.execAll_append_of_next _ hs, heval]
    rcases hbody news v name hg hv hname hk he with h | ⟨u, o, hu, ho, hc⟩
    · exact .inl h
    · exact .inr ⟨u, o, hu, ho, hc.grow hr hg hl hl₁⟩

section Main

variable {c : Context} {base : Supply} {globals : Env α} {ds : List DeclId}
  (R : Realized c w m base globals) (hw : w.Supplies c.shader) (hm : m.Sound w.program ds)
include R hw hm

theorem Lowers.simulated {task : Task} {σ' : Scope} (h : Lowers c task σ ss σ')
    {Γ : List (Nat × Ty)} (hv : task.Valid w.program c.shader ds Γ) (hr : task.Ready base σ env)
    (M : Matches w base globals σ Γ locals env) :
    task.Simulated w m locals env σ ss σ' := by
  have hasTy {e : Expr} {Γ : List (Nat × Ty)} {locals : List (Nat × Val α)} {v : Val α}
      (he : e.Valid w.program c.shader ds Γ) (hl : TypedLocals w.program Γ locals)
      (hv : e.eval w m locals = some v) : v.HasTy w.program e.ty :=
    Expr.eval_hasTy hw he.typed (hm.mono he.mentioned) hl hv
  induction h generalizing Γ locals env with
  | literal => exact simulated_pure fun _ _ => rfl
  | @bound n id name σ hl =>
      refine simulated_pure fun more hmore => ?_
      obtain ⟨v, name', hval, _, hname, hk, he⟩ := M.locals id n.ty hv.typed
      cases hl.symm.trans hname
      rw [Dialect.Expr.eval, Env.read, Env.lookup_append_of_not_mem fun h => hmore name h hk, he,
        Expr.eval, hval]
      rfl
  | term ht => exact simulated_pure fun more hmore => R.eval_readTerm (M.above_append hmore) ht
  | @input n i item σ hi =>
      refine simulated_pure fun more hmore => ?_
      obtain ⟨hk, a, ha, hl⟩ := R.inputs i item hi
      rw [Dialect.Expr.eval, (M.above_append hmore).read hk, Env.read, hl, Expr.eval, ha]
      rfl
  | path hp hx =>
      obtain ⟨root, v, hroot, hpart, hty, hval⟩ := Expr.eval_path hw hv.typed hp
      refine simulated_pure fun more hmore => ?_
      rw [hval, R.eval_rebuildWithin (M.above_append hmore) hroot hx hpart hty]
      rfl
  | apply ha hx ih =>
      refine simulated_values (ih hv.args trivial M) (fun h => by simp [Expr.eval, h]) ?_
      intro news more hg hmore hxs
      have hts : ∀ vs, Expr.evalAll w m locals _ = some vs → HasTys w.program vs _ := fun vs hvs =>
        Expr.evalAll_hasTys (fun e he v h => hasTy (hv.args e he) M.typedLocals h) hvs
      exact R.eval_applyTerm (M.above_grow hg (fun n => ha.knows) hmore) hx hv.typed.2 hts hxs
  | construct _ hf hn ih =>
      refine simulated_values (ih hv.fields trivial M) (fun h => by simp [Expr.eval, h]) ?_
      intro news more hg hmore hxs
      have hts : ∀ vs, Expr.evalAll w m locals _ = some vs → HasTys w.program vs _ := fun vs hvs =>
        Expr.evalAll_hasTys (fun e he v h => hasTy (hv.fields e he) M.typedLocals h) hvs
      exact R.eval_construct (M.above_grow hg (fun n => hf.knows) hmore) hn hv.typed.2.2 hts hxs
  | field _ hn _ ih =>
      have hbase := hv.child (by simp [Expr.children]) hv.typed.1
      refine simulated_operand (ih hbase trivial M) (fun h => by simp [Expr.eval, h]) ?_
      exact fun env hx => R.eval_field hn (fun v h => hasTy hbase M.typedLocals h) hx
  | swizzle _ ih =>
      have hbase := hv.child (by simp [Expr.children]) hv.typed.1
      refine simulated_operand (ih hbase trivial M) (fun h => by simp [Expr.eval, h]) ?_
      intro env hx
      rw [Dialect.Expr.eval, hx, Expr.eval]
      simp [Option.bind_map, Function.comp_def]
  | @hoistCond n a b d ty σ ss σ' _ hi ih =>
      have hn : ¬ σ.supply.Knows σ.temporary.1 := Supply.not_knows_temporary
      have hn₁ : σ.temporary.2.supply.Knows σ.temporary.1 := Supply.knows_temporary
      have hl : σ.Le σ.temporary.2 := fun n hk => hk.temporary
      obtain ⟨hready, hmatch⟩ := M.declare hn hn₁ hl rfl
      exact simulated_hoist ty hn hn₁ hl (fun n => hi.knows) (ih hv hready hmatch)
  | @hoistBind n b value body ty σ ss σ' _ hi ih =>
      have hn : ¬ σ.supply.Knows σ.temporary.1 := Supply.not_knows_temporary
      have hn₁ : σ.temporary.2.supply.Knows σ.temporary.1 := Supply.knows_temporary
      have hl : σ.Le σ.temporary.2 := fun n hk => hk.temporary
      obtain ⟨hready, hmatch⟩ := M.declare hn hn₁ hl rfl
      exact simulated_hoist ty hn hn₁ hl (fun n => hi.knows)
        (simulated_block (ih hv hready hmatch))
  | nil => exact .inr ⟨[], rfl, Grows.nil _ _, fun _ _ => rfl⟩
  | @cons e es x xs σ σ₁ σ₂ ss₁ ss₂ he hes ih ihs =>
      have hve := hv e (by simp)
      have hl : σ.Le σ₁ := fun n => he.knows
      have hl₁ : σ₁.Le σ₂ := fun n => hes.knows
      exact simulated_cons (ih hve trivial M) hl hl₁ fun news hg =>
        ihs (fun e he => hv e (by simp [he])) trivial <| M.grow hg hl fun id ty h =>
          he.lookup_locals fun hid => by simp [hve.unbound id hid] at h
  | write hb he ih => exact simulated_write (ih hv trivial M) hr fun n => he.knows
  | @choose n a b d x place σ σ₁ σ₂ σ₃ ss accept reject hc ha hd ihc iha ihd =>
      obtain ⟨hta, htb, htd, hbool, _, _⟩ := hv.typed
      have hva := hv.child (by simp [Expr.children]) hta
      have hvb := hv.child (by simp [Expr.children]) htb
      have hvd := hv.child (by simp [Expr.children]) htd
      have hl : σ.Le σ₁ := fun n => hc.knows
      have hl₁ : σ₁.Le σ₂ := fun n => ha.knows
      have hle : σ.Le σ₂ := fun n hn => hl₁ n (hl n hn)
      refine simulated_choose (ihc hva trivial M) ?_ ?_ ?_ hr hl hl₁ fun n => hd.knows
      · intro v hv
        exact (hbool ▸ hasTy hva M.typedLocals hv).leaf
      · intro news hg
        refine iha hvb (hr.grow hg hl) (M.grow hg hl fun id ty h => ?_)
        exact hc.lookup_locals fun hid => by simp [hva.unbound id hid] at h
      · intro news hg
        refine ihd hvd (hr.grow hg hle) (M.grow hg hle fun id ty h => ?_)
        rw [ha.lookup_locals fun hid => by simp [hvb.unbound id hid] at h]
        exact hc.lookup_locals fun hid => by simp [hva.unbound id hid] at h
  | @bind n b value body place σ σ₁ σ₂ ss₁ ss₂ hdecl hbody ihv ihb =>
      have hvalue := hv.child (by simp [Expr.children]) hv.typed.1
      have hl : σ.Le σ₁ := fun n => hdecl.knows
      have hl₁ : σ₁.Le σ₂ := fun n => hbody.knows
      refine simulated_bind (ihv ⟨hvalue, hv.typed.2.2.1⟩ trivial M) hr hl hl₁ ?_
      intro news v name hg hval hname hk he
      refine ihb hv.body (hr.grow hg hl) (M.extend hg hl ?_ hname hk he fun id ty hid h => ?_)
      · exact hv.typed.2.2.1 ▸ hasTy hvalue M.typedLocals hval
      · refine hdecl.lookup_locals fun hmem => ?_
        rcases List.mem_cons.mp hmem with hmem | hmem
        · exact hid hmem
        · simp [hvalue.unbound id hmem] at h
  | @assignLocal b value ty σ ss σ' _ _ hvalue ih =>
      have hn : ¬ σ.supply.Knows (σ.fresh b.name).1 := Supply.not_knows_fresh _
      have hn₁ : (σ.fresh b.name).2.supply.Knows (σ.fresh b.name).1 := Supply.knows_fresh _
      have hl : σ.Le (σ.fresh b.name).2 := fun n hk => hk.fresh _
      obtain ⟨hready, hmatch⟩ := M.declare hn hn₁ hl rfl
      exact simulated_assignLocal ty hn hn₁ hl (fun n => hvalue.knows) (ih hv.1 hready hmatch)
  | @initLocal b value x ty σ ss σ' _ _ hvalue ih =>
      have hn : ¬ σ.supply.Knows (σ.fresh b.name).1 := Supply.not_knows_fresh _
      have hn₁ : (σ.fresh b.name).2.supply.Knows (σ.fresh b.name).1 := Supply.knows_fresh _
      have hl : σ.Le (σ.fresh b.name).2 := fun n hk => hk.fresh _
      exact simulated_initLocal ty hn hn₁ hl (fun n => hvalue.knows)
        (ih hv.1 trivial (M.grow (Grows.nil _ _) hl fun _ _ _ => rfl))

end Main

end ShaderDialects.Lowering
