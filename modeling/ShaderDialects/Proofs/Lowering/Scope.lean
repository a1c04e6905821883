import ShaderDialects.Proofs.Identifier.Fresh
import ShaderDialects.Proofs.Lowering.Derivation
import ShaderDialects.Proofs.Source.Linearization

namespace ShaderDialects

variable {p : Program} {s : Shader} {ds : List DeclId} {Γ : List (Nat × Ty)}

/-- The expression is typed where it stands, binds no id twice nor one that is in scope, and refers
to no other declarations than `ds`. -/
structure Expr.Valid (p : Program) (s : Shader) (ds : List DeclId) (Γ : List (Nat × Ty))
    (e : Expr) : Prop where
  typed : e.Typed p s Γ
  unique : e.binders.Nodup
  unbound : ∀ id ∈ e.binders, Γ.lookup id = none
  mentioned : ∀ d ∈ e.mentions, d ∈ ds

namespace Expr.Valid

theorem child {e child : Expr} (h : e.Valid p s ds Γ) (hc : child ∈ e.children)
    (ht : child.Typed p s Γ) : child.Valid p s ds Γ := by
  have hsub : child.binders.Sublist e.binders := by
    rw [binders_eq e, List.flatMap_def]
    exact (List.sublist_flatten_of_mem (List.mem_map_of_mem hc)).trans
      (List.sublist_append_right _ _)
  exact ⟨ht, hsub.nodup h.unique, fun id hid => h.unbound id (hsub.subset hid),
    fun d hd => h.mentioned d (mentions_of_child hc hd)⟩

theorem body {n : Note} {b : Binding} {value body : Expr}
    (h : (Expr.bind n b value body).Valid p s ds Γ) : body.Valid p s ds ((b.id, b.ty) :: Γ) := by
  obtain ⟨ht, hu, hb, hm⟩ := h
  rw [binders_bind] at hu hb
  obtain ⟨hid, hu⟩ := List.nodup_cons.mp hu
  refine ⟨ht.2.1, (List.nodup_append.mp hu).2.1, fun id hmem => ?_,
    fun d hd => hm d (mentions_of_child (by simp [children]) hd)⟩
  have hne : id ≠ b.id := fun heq => hid (heq ▸ List.mem_append_right _ hmem)
  rw [List.lookup_cons, beq_false_of_ne hne]
  exact hb id (List.mem_cons_of_mem _ (List.mem_append_right _ hmem))

theorem args {n : Note} {f : Nat} {args : List Expr} (h : (Expr.apply n f args).Valid p s ds Γ) :
    ∀ e ∈ args, e.Valid p s ds Γ :=
  fun e he => h.child he ((typedAll_iff p s).mp h.typed.1 e he)

theorem fields {n : Note} {r : Nat} {fields : List Expr}
    (h : (Expr.construct n r fields).Valid p s ds Γ) : ∀ e ∈ fields, e.Valid p s ds Γ :=
  fun e he => h.child he ((typedAll_iff p s).mp h.typed.1 e he)

end Expr.Valid

namespace Dialect.Stmt

mutual

def localNames : Stmt → List String
  | declare name _ _ => [name]
  | cond _ accept reject => localNamesOf accept ++ localNamesOf reject
  | block body => localNamesOf body
  | assign _ _ => []
  | .return _ => []

def localNamesOf : List Stmt → List String
  | [] => []
  | s :: ss => localNames s ++ localNamesOf ss

end

@[simp]
theorem localNamesOf_append (ss ss' : List Stmt) :
    localNamesOf (ss ++ ss') = localNamesOf ss ++ localNamesOf ss' := by
  induction ss with
  | nil => rfl
  | cons s ss ih => rw [List.cons_append, localNamesOf, ih, localNamesOf, List.append_assoc]

end Dialect.Stmt

namespace Lowering

open Dialect (Stmt)
open Identifier (Supply)

def Task.binders : Task → List Nat
  | value e _ | into e _ => e.binders
  | values es _ => es.flatMap Expr.binders
  | declare b e => b.id :: e.binders

theorem Scope.lookup_bind_of_ne {σ : Scope} {id b : Nat} (h : id ≠ b) (name : String) :
    (σ.bind b name).locals.lookup id = σ.locals.lookup id := by
  rw [Scope.bind, List.lookup_cons, beq_false_of_ne h]

@[simp]
theorem Scope.lookup_bind_self (σ : Scope) (b : Nat) (name : String) :
    (σ.bind b name).locals.lookup b = some name := by
  simp [Scope.bind]

theorem Scope.exists_lookup_bind {σ : Scope} {id b : Nat} {name : String}
    (h : id ≠ b → ∃ name, σ.locals.lookup id = some name) :
    ∃ found, (σ.bind b name).locals.lookup id = some found := by
  by_cases hid : id = b
  · subst hid
    exact ⟨name, Scope.lookup_bind_self _ _ _⟩
  · obtain ⟨found, hfound⟩ := h hid
    exact ⟨found, by rwa [Scope.lookup_bind_of_ne hid]⟩

namespace Lowers

variable {c : Context} {task : Task} {σ σ' : Scope} {ss : List Stmt}

theorem gives (h : Lowers c task σ ss σ') :
    σ.supply.Gives (Stmt.localNamesOf ss) σ'.supply := by
  induction h with
  | literal | bound | term | input | path | nil => exact .nil
  | apply _ _ ih | construct _ _ _ ih | field _ _ _ ih | swizzle _ ih => exact ih
  | hoistCond _ _ ih => exact .temporary ih
  | @hoistBind _ _ _ _ _ _ ss _ _ _ ih =>
      have hb : Stmt.localNamesOf [.block ss] = Stmt.localNamesOf ss := List.append_nil _
      exact .temporary (hb.symm ▸ ih)
  | cons _ _ ih ih₁ | bind _ _ ih ih₁ =>
      rw [Stmt.localNamesOf_append]
      exact ih.append ih₁
  | @write _ x place _ _ _ _ _ ih =>
      have hw : Stmt.localNamesOf [place.write x] = [] := by cases place <;> rfl
      rwa [Stmt.localNamesOf_append, hw, List.append_nil]
  | choose _ _ _ ih ih₁ ih₂ =>
      simpa [Stmt.localNamesOf, Stmt.localNames] using ih.append (ih₁.append ih₂)
  | assignLocal _ _ _ ih => exact .fresh _ ih
  | initLocal _ _ _ ih =>
      -- the local is named before its value is lowered, and declared after it
      rw [Stmt.localNamesOf_append]
      exact .perm (.fresh _ ih) (List.perm_append_singleton _ _).symm

theorem knows (h : Lowers c task σ ss σ') {n : String} (hn : σ.supply.Knows n) :
    σ'.supply.Knows n :=
  h.gives.knows hn

theorem lookup_locals (h : Lowers c task σ ss σ') {id : Nat} (hid : id ∉ task.binders) :
    σ'.locals.lookup id = σ.locals.lookup id := by
  induction h with
  | literal | bound | term | input | path | nil => rfl
  | apply _ _ ih | construct _ _ _ ih | field _ _ _ ih | swizzle _ ih =>
      exact ih (by simpa [Task.binders] using hid)
  | write _ _ ih => exact ih hid
  | hoistCond _ _ ih | hoistBind _ _ ih => exact ih hid
  | cons _ _ ih ih₁ =>
      simp only [Task.binders, List.flatMap_cons, List.mem_append, not_or] at hid
      rw [ih₁ hid.2, ih hid.1]
  | choose _ _ _ ih ih₁ ih₂ =>
      obtain ⟨hc, ha, hr⟩ : id ∉ _ ∧ id ∉ _ ∧ id ∉ _ := by simpa [Task.binders] using hid
      rw [ih₂ hr, ih₁ ha, ih hc]
  | bind _ _ ih ih₁ =>
      obtain ⟨hb, hv, hbody⟩ : id ≠ _ ∧ id ∉ _ ∧ id ∉ _ := by simpa [Task.binders] using hid
      rw [ih₁ hbody, ih (by simp [Task.binders, hb, hv])]
  | assignLocal _ _ _ ih | initLocal _ _ _ ih =>
      obtain ⟨hb, hv⟩ : id ≠ _ ∧ id ∉ _ := by simpa [Task.binders] using hid
      rw [Scope.lookup_bind_of_ne hb, ih hv]
      rfl

end Lowers

end Lowering

end ShaderDialects
