import ShaderDialects.Proofs.Source.Typing

namespace ShaderDialects

def Program.resultTy? (p : Program) (f : Nat) : Option Ty := (p.functionTy? f).map Prod.snd

namespace Expr

variable (p : Program) (s : Shader)

mutual

/-- Every node is noted with the type it has, where the locals in scope have the types of `Γ`. -/
def Noted (Γ : List (Nat × Ty)) : Expr → Prop
  | literal n v => n.ty = .leaf v.leaf
  | bound n id => Γ.lookup id = some n.ty
  | term n t => p.valueTy? t = some n.ty
  | input n i => s.inputs[i]?.map Slot.ty = some n.ty
  | parameter n i => s.parameters[i]?.map Slot.ty = some n.ty
  | apply n f args => NotedAll Γ args ∧ p.resultTy? f = some n.ty
  | cond n c a r => Noted Γ c ∧ Noted Γ a ∧ Noted Γ r ∧ a.ty = n.ty ∧ r.ty = n.ty
  | bind n b value body =>
      Noted Γ value ∧ Noted ((b.id, b.ty) :: Γ) body ∧ value.ty = b.ty ∧ body.ty = n.ty
  | construct n r fields => NotedAll Γ fields ∧ n.ty = .record r
  | field n base i => Noted Γ base ∧ p.fieldTy? base.ty i = some n.ty
  | swizzle n base s => Noted Γ base ∧ base.ty.swizzled? s = some n.ty

def NotedAll (Γ : List (Nat × Ty)) : List Expr → Prop
  | [] => True
  | e :: es => Noted Γ e ∧ NotedAll Γ es

end

variable {p s} {Γ : List (Nat × Ty)}

theorem notedAll_iff {es : List Expr} : NotedAll p s Γ es ↔ ∀ e ∈ es, e.Noted p s Γ := by
  induction es with
  | nil => simp [NotedAll]
  | cons e es ih => simp [NotedAll, ih]

theorem Typed.noted {e : Expr} (h : e.Typed p s Γ) : e.Noted p s Γ := by
  induction e generalizing Γ with
  | literal | bound | term | input | parameter => exact h
  | apply n f args ih =>
      refine ⟨notedAll_iff.mpr fun e he => ih e he ((typedAll_iff p s).mp h.1 e he), ?_⟩
      simp [Program.resultTy?, h.2]
  | cond n c a r ihc iha ihr => exact ⟨ihc h.1, iha h.2.1, ihr h.2.2.1, h.2.2.2.2⟩
  | bind n b value body ihv ihb => exact ⟨ihv h.1, ihb h.2.1, h.2.2⟩
  | construct n r fields ih =>
      exact ⟨notedAll_iff.mpr fun e he => ih e he ((typedAll_iff p s).mp h.1 e he), h.2.1⟩
  | field n base i ih => exact ⟨ih h.1, h.2⟩
  | swizzle n base s ih => exact ⟨ih h.1, h.2⟩

end Expr

def TermKind.Noted (p : Program) (s : Shader) : TermKind → Prop
  | function params _ body => body.Noted p s (params.map fun b => (b.id, b.ty))
  | value _ body => body.Noted p s []
  | external _ _ => True

theorem TermKind.Typed.noted {p : Program} {s : Shader} {k : TermKind} (h : k.Typed p s) :
    k.Noted p s := by
  cases k with
  | function params result body | value ty body => exact h.1.noted
  | external symbol signature => trivial

def Step.Noted (p : Program) (s : Shader) (Γ : List (Nat × Ty)) : Step → Prop
  | bind b value => value.Noted p s Γ ∧ value.ty = b.ty
  | discard condition _ => condition.Noted p s Γ

namespace Shader

variable (p : Program) (s : Shader)

def NotedSteps : List (Nat × Ty) → List Step → Prop
  | _, [] => True
  | Γ, step :: steps => step.Noted p s Γ ∧ NotedSteps (step.extend Γ) steps

def Noted : Prop := s.NotedSteps p [] s.steps ∧ ∀ a ∈ s.assignments, a.value.Noted p s s.scope

variable {p s}

theorem TypedSteps.noted {Γ : List (Nat × Ty)} {steps : List Step} (h : s.TypedSteps p Γ steps) :
    s.NotedSteps p Γ steps := by
  induction steps generalizing Γ with
  | nil => trivial
  | cons step steps ih =>
      refine ⟨?_, ih h.2⟩
      cases step with
      | bind b value => exact ⟨h.1.1.noted, h.1.2⟩
      | discard condition span => exact h.1.1.noted

end Shader

structure WellNoted (p : Program) (s : Shader) (closure : Closure) : Prop where
  shader : s.Noted p
  terms : closure.AllTerms p fun t => t.kind.Noted p s

theorem WellTyped.noted {p : Program} {s : Shader} {closure : Closure}
    (h : WellTyped p s closure) : WellNoted p s closure :=
  ⟨⟨h.shader.1.noted, fun a ha => (h.shader.2 a ha).1.noted⟩,
    fun i t hi ht => (h.terms i t hi ht).noted⟩

end ShaderDialects
