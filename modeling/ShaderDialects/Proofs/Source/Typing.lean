import Mathlib.Tactic.MkIffOfInductiveProp
import ShaderDialects.Source.Closure

namespace ShaderDialects

@[elab_as_elim, induction_eliminator]
theorem Expr.induct {motive : Expr → Prop}
    (literal : ∀ n v, motive (.literal n v)) (bound : ∀ n id, motive (.bound n id))
    (term : ∀ n t, motive (.term n t)) (input : ∀ n i, motive (.input n i))
    (parameter : ∀ n i, motive (.parameter n i))
    (apply : ∀ n f args, (∀ e ∈ args, motive e) → motive (.apply n f args))
    (cond : ∀ n c a r, motive c → motive a → motive r → motive (.cond n c a r))
    (bind : ∀ n b value body, motive value → motive body → motive (.bind n b value body))
    (construct : ∀ n r fields, (∀ e ∈ fields, motive e) → motive (.construct n r fields))
    (field : ∀ n base i, motive base → motive (.field n base i))
    (swizzle : ∀ n base s, motive base → motive (.swizzle n base s))
    (e : Expr) : motive e :=
  @Expr.rec motive (fun es => ∀ e ∈ es, motive e) literal bound term input parameter
    apply cond bind construct field swizzle (by simp)
    (fun e es he hes => by simpa using ⟨he, hes⟩) e

def TermKind.valueTy? : TermKind → Option Ty
  | value ty _ => some ty
  | external _ (.value leaf) => some (.leaf leaf)
  | _ => none

def TermKind.functionTy? : TermKind → Option (List Ty × Ty)
  | function params result _ => some (params.map Binding.ty, result)
  | external _ (.function params result) => some (params.map .leaf, .leaf result)
  | _ => none

namespace Program

variable (p : Program)

def valueTy? (t : Nat) : Option Ty := p.terms[t]?.bind fun t => t.kind.valueTy?

def functionTy? (f : Nat) : Option (List Ty × Ty) := p.terms[f]?.bind fun t => t.kind.functionTy?

variable {p} in
theorem valueTy?_cases {i : Nat} {ty : Ty} (h : p.valueTy? i = some ty) :
    ∃ t, p.terms[i]? = some t ∧ ((∃ body, t.kind = .value ty body) ∨
      ∃ symbol leaf, t.kind = .external symbol (.value leaf) ∧ ty = .leaf leaf) := by
  obtain ⟨t, ht, h⟩ := Option.bind_eq_some_iff.mp h
  refine ⟨t, ht, ?_⟩
  cases hk : t.kind with
  | function params result body => simp [hk, TermKind.valueTy?] at h
  | value ty' body => simp_all [TermKind.valueTy?]
  | external symbol signature =>
      cases signature with
      | function leaves r => simp [hk, TermKind.valueTy?] at h
      | value leaf =>
          obtain rfl : .leaf leaf = ty := by simpa [hk, TermKind.valueTy?] using h
          exact .inr ⟨symbol, leaf, rfl, rfl⟩

variable {p} in
theorem functionTy?_cases {f : Nat} {tys : List Ty} {ty : Ty}
    (h : p.functionTy? f = some (tys, ty)) :
    ∃ t, p.terms[f]? = some t ∧
      ((∃ params body, t.kind = .function params ty body ∧ tys = params.map Binding.ty) ∨
        ∃ symbol leaves r, t.kind = .external symbol (.function leaves r) ∧
          tys = leaves.map .leaf ∧ ty = .leaf r) := by
  obtain ⟨t, ht, h⟩ := Option.bind_eq_some_iff.mp h
  refine ⟨t, ht, ?_⟩
  cases hk : t.kind with
  | function params result body => simp_all [TermKind.functionTy?]
  | value ty' body => simp [hk, TermKind.functionTy?] at h
  | external symbol signature =>
      cases signature with
      | value leaf => simp [hk, TermKind.functionTy?] at h
      | function leaves r =>
          obtain ⟨rfl, rfl⟩ : leaves.map .leaf = tys ∧ .leaf r = ty := by
            simpa [hk, TermKind.functionTy?] using h
          exact .inr ⟨symbol, leaves, r, rfl, rfl, rfl⟩

def fieldTys? (r : Nat) : Option (List Ty) := p.records[r]?.map fun r => r.fields.map Field.ty

def fieldTy? (base : Ty) (i : Nat) : Option Ty :=
  match base with
  | .leaf _ => none
  | .record r => (p.fieldTys? r).bind fun tys => tys[i]?

end Program

def Component.index : Component → Nat
  | x => 0
  | y => 1
  | z => 2
  | w => 3

def Leaf.swizzled? (t : Leaf) (s : Swizzle) : Option Leaf :=
  match t with
  | vector k size =>
      if s.components.all (fun c => c.index < size.length) then
        match s.components with
        | [_] => some (scalar k)
        | cs => (Extent.ofLength? cs.length).map (vector k)
      else none
  | _ => none

def Ty.swizzled? (t : Ty) (s : Swizzle) : Option Ty :=
  (t.leaf?.bind fun leaf => leaf.swizzled? s).map .leaf

namespace Expr

variable (p : Program) (s : Shader)

mutual

/-- Every node has the type it is noted with, where the locals in scope have the types of `Γ`. -/
def Typed (Γ : List (Nat × Ty)) : Expr → Prop
  | literal n v => n.ty = .leaf v.leaf
  | bound n id => Γ.lookup id = some n.ty
  | term n t => p.valueTy? t = some n.ty
  | input n i => s.inputs[i]?.map Slot.ty = some n.ty
  | parameter n i => s.parameters[i]?.map Slot.ty = some n.ty
  | apply n f args => TypedAll Γ args ∧ p.functionTy? f = some (args.map ty, n.ty)
  | cond n c a r =>
      Typed Γ c ∧ Typed Γ a ∧ Typed Γ r ∧ c.ty = .leaf .bool ∧ a.ty = n.ty ∧ r.ty = n.ty
  | bind n b value body =>
      Typed Γ value ∧ Typed ((b.id, b.ty) :: Γ) body ∧ value.ty = b.ty ∧ body.ty = n.ty
  | construct n r fields =>
      TypedAll Γ fields ∧ n.ty = .record r ∧ p.fieldTys? r = some (fields.map ty)
  | field n base i => Typed Γ base ∧ p.fieldTy? base.ty i = some n.ty
  | swizzle n base s => Typed Γ base ∧ base.ty.swizzled? s = some n.ty

def TypedAll (Γ : List (Nat × Ty)) : List Expr → Prop
  | [] => True
  | e :: es => Typed Γ e ∧ TypedAll Γ es

end

mutual

def decideTyped : (Γ : List (Nat × Ty)) → (e : Expr) → Decidable (e.Typed p s Γ)
  | _, literal n v => inferInstanceAs (Decidable (n.ty = .leaf v.leaf))
  | Γ, bound n id => inferInstanceAs (Decidable (Γ.lookup id = some n.ty))
  | _, term n t => inferInstanceAs (Decidable (p.valueTy? t = some n.ty))
  | _, input n i => inferInstanceAs (Decidable (s.inputs[i]?.map Slot.ty = some n.ty))
  | _, parameter n i => inferInstanceAs (Decidable (s.parameters[i]?.map Slot.ty = some n.ty))
  | Γ, apply _ _ args =>
      have := decideTypedAll Γ args
      instDecidableAnd
  | Γ, cond _ c a r =>
      have := decideTyped Γ c
      have := decideTyped Γ a
      have := decideTyped Γ r
      instDecidableAnd
  | Γ, bind _ b value body =>
      have := decideTyped Γ value
      have := decideTyped ((b.id, b.ty) :: Γ) body
      instDecidableAnd
  | Γ, construct _ _ fields =>
      have := decideTypedAll Γ fields
      instDecidableAnd
  | Γ, field _ base _ =>
      have := decideTyped Γ base
      instDecidableAnd
  | Γ, swizzle _ base _ =>
      have := decideTyped Γ base
      instDecidableAnd

def decideTypedAll : (Γ : List (Nat × Ty)) → (es : List Expr) → Decidable (TypedAll p s Γ es)
  | _, [] => instDecidableTrue
  | Γ, e :: es =>
      have := decideTyped Γ e
      have := decideTypedAll Γ es
      instDecidableAnd

end

instance (Γ : List (Nat × Ty)) (e : Expr) : Decidable (e.Typed p s Γ) := decideTyped p s Γ e

theorem typedAll_iff {Γ : List (Nat × Ty)} {es : List Expr} :
    TypedAll p s Γ es ↔ ∀ e ∈ es, e.Typed p s Γ := by
  induction es with
  | nil => simp [TypedAll]
  | cons e es ih => simp [TypedAll, ih]

def ownBinders : Expr → List Nat
  | bind _ b _ _ => [b.id]
  | _ => []

def binders (e : Expr) : List Nat := e.nodes.flatMap ownBinders

theorem binders_eq (e : Expr) : e.binders = e.ownBinders ++ e.children.flatMap binders := by
  rw [binders, nodes_eq, List.flatMap_cons, List.flatMap_assoc]
  rfl

@[simp]
theorem binders_apply (n : Note) (f : Nat) (args : List Expr) :
    (apply n f args).binders = args.flatMap binders := by
  simp [binders_eq (apply n f args), ownBinders, children]

@[simp]
theorem binders_cond (n : Note) (c a r : Expr) :
    (cond n c a r).binders = c.binders ++ a.binders ++ r.binders := by
  simp [binders_eq (cond n c a r), ownBinders, children]

@[simp]
theorem binders_bind (n : Note) (b : Binding) (value body : Expr) :
    (bind n b value body).binders = b.id :: (value.binders ++ body.binders) := by
  simp [binders_eq (bind n b value body), ownBinders, children]

@[simp]
theorem binders_construct (n : Note) (r : Nat) (fields : List Expr) :
    (construct n r fields).binders = fields.flatMap binders := by
  simp [binders_eq (construct n r fields), ownBinders, children]

@[simp]
theorem binders_field (n : Note) (base : Expr) (i : Nat) :
    (field n base i).binders = base.binders := by
  simp [binders_eq (field n base i), ownBinders, children]

@[simp]
theorem binders_swizzle (n : Note) (base : Expr) (s : Swizzle) :
    (swizzle n base s).binders = base.binders := by
  simp [binders_eq (swizzle n base s), ownBinders, children]

end Expr

namespace TermKind

variable (p : Program) (s : Shader)

def Typed : TermKind → Prop
  | function params result body =>
      body.Typed p s (params.map fun b => (b.id, b.ty)) ∧ body.ty = result
  | value ty body => body.Typed p s [] ∧ body.ty = ty
  | external _ _ => True

instance (k : TermKind) : Decidable (k.Typed p s) :=
  match k with
  | function _ _ _ | value _ _ => instDecidableAnd
  | external _ _ => instDecidableTrue

def binders : TermKind → List Nat
  | function params _ body => params.map Binding.id ++ body.binders
  | value _ body => body.binders
  | external _ _ => []

end TermKind

def Step.extend (Γ : List (Nat × Ty)) : Step → List (Nat × Ty)
  | bind b _ => (b.id, b.ty) :: Γ
  | discard _ _ => Γ

def Step.Typed (p : Program) (s : Shader) (Γ : List (Nat × Ty)) : Step → Prop
  | bind b value => value.Typed p s Γ ∧ value.ty = b.ty
  | discard condition _ => condition.Typed p s Γ ∧ condition.ty = .leaf .bool

instance (p : Program) (s : Shader) (Γ : List (Nat × Ty)) (step : Step) :
    Decidable (step.Typed p s Γ) :=
  match step with
  | .bind _ _ | .discard _ _ => instDecidableAnd

def Step.binders : Step → List Nat
  | bind b value => b.id :: value.binders
  | discard condition _ => condition.binders

namespace Shader

variable (p : Program) (s : Shader)

def TypedSteps : List (Nat × Ty) → List Step → Prop
  | _, [] => True
  | Γ, step :: steps => step.Typed p s Γ ∧ TypedSteps (step.extend Γ) steps

def TypedAssignment (Γ : List (Nat × Ty)) (a : Assignment) : Prop :=
  a.value.Typed p s Γ ∧ s.outputs[a.output]?.map (fun o => o.ty) = some a.value.ty

def scope : List (Nat × Ty) := s.steps.foldl Step.extend []

def Typed : Prop := s.TypedSteps p [] s.steps ∧ ∀ a ∈ s.assignments, s.TypedAssignment p s.scope a

def binders : List Nat :=
  s.steps.flatMap Step.binders ++ s.assignments.flatMap fun a => a.value.binders

def decideTypedSteps : (Γ : List (Nat × Ty)) → (steps : List Step) → Decidable (s.TypedSteps p Γ steps)
  | _, [] => instDecidableTrue
  | Γ, step :: steps =>
      have := decideTypedSteps (step.extend Γ) steps
      instDecidableAnd

instance (Γ : List (Nat × Ty)) (a : Assignment) : Decidable (s.TypedAssignment p Γ a) :=
  instDecidableAnd

instance : Decidable (s.Typed p) :=
  have := decideTypedSteps p s [] s.steps
  instDecidableAnd

end Shader

def Closure.AllTerms (p : Program) (closure : Closure) (P : Term → Prop) : Prop :=
  ∀ i t, .term i ∈ closure.order → p.terms[i]? = some t → P t

theorem Closure.allTerms_iff {p : Program} {closure : Closure} {P : Term → Prop} :
    closure.AllTerms p P ↔ ∀ i ∈ closure.terms, ∀ t ∈ p.terms[i]?, P t := by
  have hmem (i : Nat) : i ∈ closure.terms ↔ .term i ∈ closure.order := by
    rw [terms, List.mem_filterMap]
    constructor
    · rintro ⟨d, hd, hi⟩
      cases d with
      | term j =>
          obtain rfl : j = i := by simpa using hi
          exact hd
      | record j => simp at hi
    · exact fun h => ⟨_, h, rfl⟩
  simp only [hmem, Option.mem_def]
  exact ⟨fun h i hi t ht => h i t hi ht, fun h i t hi ht => h i hi t ht⟩

instance (p : Program) (closure : Closure) (P : Term → Prop) [DecidablePred P] :
    Decidable (closure.AllTerms p P) :=
  decidable_of_iff _ Closure.allTerms_iff.symm

@[mk_iff]
structure WellTyped (p : Program) (s : Shader) (closure : Closure) : Prop where
  shader : s.Typed p
  terms : closure.AllTerms p fun t => t.kind.Typed p s

/-- No two binders of the shader, or of a term of its closure, share an id. -/
@[mk_iff]
structure UniqueBinders (p : Program) (s : Shader) (closure : Closure) : Prop where
  shader : s.binders.Nodup
  terms : closure.AllTerms p fun t => t.kind.binders.Nodup

instance (p : Program) (s : Shader) (closure : Closure) : Decidable (WellTyped p s closure) :=
  decidable_of_iff _ (wellTyped_iff p s closure).symm

instance (p : Program) (s : Shader) (closure : Closure) : Decidable (UniqueBinders p s closure) :=
  decidable_of_iff _ (uniqueBinders_iff p s closure).symm

end ShaderDialects
