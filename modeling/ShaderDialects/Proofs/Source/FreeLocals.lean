import ShaderDialects.Proofs.Source.Typing

namespace ShaderDialects

namespace Expr

mutual

/-- The ids read outside of what binds them; a let binds in its body only. -/
def free : Expr → List Nat
  | literal _ _ | term _ _ | input _ _ | parameter _ _ => []
  | bound _ id => [id]
  | apply _ _ args => freeOf args
  | cond _ c a r => free c ++ free a ++ free r
  | bind _ b value body => free value ++ (free body).filter (· ≠ b.id)
  | construct _ _ fields => freeOf fields
  | field _ base _ => free base
  | swizzle _ base _ => free base

def freeOf : List Expr → List Nat
  | [] => []
  | e :: es => free e ++ freeOf es

end

end Expr

/-- The ids that steps read before they bind them, or that are among `rest`, what is read after
them, and not bound by then. -/
def Step.free (rest : List Nat) : List Step → List Nat
  | [] => rest
  | bind b value :: steps => value.free ++ (free rest steps).filter (· ≠ b.id)
  | discard condition _ :: steps => condition.free ++ free rest steps

def TermKind.free : TermKind → List Nat
  | function params _ body => body.free.filter (· ∉ params.map Binding.id)
  | value _ body => body.free
  | external _ _ => []

def Shader.free (s : Shader) : List Nat :=
  Step.free (s.assignments.flatMap fun a => a.value.free) s.steps

namespace Expr

mutual

def unbound (ids : List Nat) : Expr → List Nat
  | literal _ _ | term _ _ | input _ _ | parameter _ _ => []
  | bound _ id => if id ∈ ids then [] else [id]
  | apply _ _ args => unboundOf ids args
  | cond _ c a r =>
      unbound ids c ++ unbound (c.binders ++ ids) a ++ unbound (a.binders ++ (c.binders ++ ids)) r
  | bind _ b value body => unbound ids value ++ unbound (b.id :: value.binders ++ ids) body
  | construct _ _ fields => unboundOf ids fields
  | field _ base _ => unbound ids base
  | swizzle _ base _ => unbound ids base

def unboundOf (ids : List Nat) : List Expr → List Nat
  | [] => []
  | e :: es => unbound ids e ++ unboundOf (e.binders ++ ids) es

end

theorem unbound_of_parameterPath {e : Expr} {r : Nat × List Nat} (h : e.parameterPath? = some r)
    (ids : List Nat) : e.unbound ids = [] := by
  induction e generalizing r with
  | parameter n i => rfl
  | field n base i ih =>
      obtain ⟨q, hq, -⟩ := Option.map_eq_some_iff.mp h
      exact ih hq
  | _ => cases h

theorem binders_of_parameterPath {e : Expr} {r : Nat × List Nat} (h : e.parameterPath? = some r) :
    e.binders = [] := by
  induction e generalizing r with
  | parameter n i => rfl
  | field n base i ih =>
      obtain ⟨q, hq, -⟩ := Option.map_eq_some_iff.mp h
      rw [binders_field]
      exact ih hq
  | _ => cases h

theorem freeOf_eq_flatMap (es : List Expr) : freeOf es = es.flatMap free := by
  induction es with
  | nil => rfl
  | cons e es ih => rw [freeOf, ih, List.flatMap_cons]

theorem free_of_unboundOf {es : List Expr} {ids : List Nat} {id : Nat}
    (he : ∀ e ∈ es, ∀ ids, id ∈ e.unbound ids → id ∈ e.free ∧ id ∉ ids)
    (h : id ∈ unboundOf ids es) : id ∈ freeOf es ∧ id ∉ ids := by
  induction es generalizing ids with
  | nil => exact absurd h List.not_mem_nil
  | cons e es ih =>
      obtain ⟨he, hes⟩ := List.forall_mem_cons.mp he
      rcases List.mem_append.mp h with h | h
      · exact (he ids h).imp_left (List.mem_append_left _)
      · obtain ⟨hf, hids⟩ := ih hes h
        exact ⟨List.mem_append_right _ hf, fun hid => hids (List.mem_append_right _ hid)⟩

theorem free_of_unbound {e : Expr} {ids : List Nat} {id : Nat} (h : id ∈ e.unbound ids) :
    id ∈ e.free ∧ id ∉ ids := by
  induction e generalizing ids with
  | literal | term | input | parameter => exact absurd h List.not_mem_nil
  | bound n i => grind [unbound, free]
  | apply n f args ih | construct n r fields ih =>
      exact free_of_unboundOf (fun e he _ h => ih e he h) h
  | cond n c a r ihc iha ihr => grind [unbound, free]
  | bind n b value body ihv ihb => grind [unbound, free]
  | field n base i ih | swizzle n base s ih => exact ih h

end Expr

def Step.unboundOf (ids : List Nat) : List Step → List Nat
  | [] => []
  | step :: steps => step.expr.unbound ids ++ unboundOf (step.binders ++ ids) steps

def TermKind.unbound : TermKind → List Nat
  | function params _ body => body.unbound (params.map Binding.id)
  | value _ body => body.unbound []
  | external _ _ => []

def Shader.unbound (s : Shader) : List Nat :=
  Step.unboundOf [] s.steps ++
    Expr.unboundOf (s.steps.flatMap Step.binders) (s.assignments.map Assignment.value)

theorem Step.free_of_unboundOf {steps : List Step} {rest ids : List Nat} {id : Nat}
    (h : id ∈ unboundOf ids steps) : id ∈ free rest steps ∧ id ∉ ids := by
  induction steps generalizing ids with
  | nil => exact absurd h List.not_mem_nil
  | cons step steps ih =>
      have hvalue (hv : id ∈ step.expr.unbound ids) := Expr.free_of_unbound hv
      cases step <;> grind [unboundOf, free, Step.expr, Step.binders]

theorem Step.free_of_rest {steps : List Step} {rest : List Nat} {id : Nat} (h : id ∈ rest)
    (hid : id ∉ steps.flatMap Step.binders) : id ∈ free rest steps := by
  induction steps with
  | nil => exact h
  | cons step steps ih => cases step <;> grind [free, Step.binders]

theorem TermKind.free_of_unbound {k : TermKind} {id : Nat} (h : id ∈ k.unbound) : id ∈ k.free := by
  cases k with
  | function params result body =>
      obtain ⟨hf, hp⟩ := Expr.free_of_unbound h
      exact List.mem_filter.mpr ⟨hf, decide_eq_true hp⟩
  | value ty body => exact (Expr.free_of_unbound h).1
  | external symbol signature => exact absurd h List.not_mem_nil

theorem Shader.free_of_unbound {s : Shader} {id : Nat} (h : id ∈ s.unbound) : id ∈ s.free := by
  rcases List.mem_append.mp h with h | h
  · exact (Step.free_of_unboundOf h).1
  · obtain ⟨hf, hid⟩ := Expr.free_of_unboundOf (fun _ _ _ => Expr.free_of_unbound) h
    rw [Expr.freeOf_eq_flatMap, List.flatMap_map] at hf
    exact Step.free_of_rest hf hid

@[mk_iff]
structure BoundLocals (p : Program) (s : Shader) (closure : Closure) : Prop where
  shader : s.free = []
  terms : closure.AllTerms p fun t => t.kind.free = []

instance (p : Program) (s : Shader) (closure : Closure) : Decidable (BoundLocals p s closure) :=
  decidable_of_iff _ (boundLocals_iff p s closure).symm

/-- Where the locals `ids` are in scope, code that reads the locals `free` and binds those of
`binders` reads no others, and binds no id twice nor one that is in scope. -/
structure Fits (ids free binders : List Nat) : Prop where
  free : ∀ id ∈ free, id ∈ ids
  unique : binders.Nodup
  unbound : ∀ id ∈ binders, id ∉ ids

namespace Fits

variable {ids free free' binders binders' : List Nat}

theorem part (F : Fits ids free binders) (hf : free' ⊆ free) (hb : binders'.Sublist binders) :
    Fits ids free' binders' where
  free := fun id hid => F.free id (hf hid)
  unique := hb.nodup F.unique
  unbound := fun id hid => F.unbound id (hb.subset hid)

theorem left (F : Fits ids (free ++ free') (binders ++ binders')) : Fits ids free binders :=
  F.part (List.subset_append_left _ _) (List.sublist_append_left _ _)

theorem right (F : Fits ids (free ++ free') (binders ++ binders')) : Fits ids free' binders' :=
  F.part (List.subset_append_right _ _) (List.sublist_append_right _ _)

theorem body {b : Nat}
    (F : Fits ids (free ++ free'.filter (· ≠ b)) (b :: (binders ++ binders'))) :
    Fits (b :: ids) free' binders' := by
  obtain ⟨hb, hn⟩ := List.nodup_cons.mp F.unique
  refine ⟨fun id hid => ?_, (List.nodup_append.mp hn).2.1, fun id hid h => ?_⟩
  · by_cases hid' : id = b
    · exact hid' ▸ List.mem_cons_self
    · apply List.mem_cons_of_mem
      exact F.free id (List.mem_append_right _ (by simp [hid, hid']))
  · have hmem : id ∈ binders ++ binders' := List.mem_append_right _ hid
    rcases List.mem_cons.mp h with rfl | h
    · exact hb hmem
    · exact F.unbound id (List.mem_cons_of_mem _ hmem) h

end Fits

end ShaderDialects
