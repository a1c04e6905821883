import ShaderDialects.Builtin.Form
import ShaderDialects.Proofs.Except
import ShaderDialects.Proofs.Source.Typing

namespace ShaderDialects

inductive Value (κ α : Type) where
  | leaf (data : α)
  | record (tag : κ) (fields : List (Value κ α))

structure Drawn (α : Type) where
  discards : List α
  writes : List α
  deriving DecidableEq

/-- What the target language itself does with leaf values. -/
structure Interpretation (α : Type) where
  literal : Literal → α
  truth : α → Bool
  swizzle : α → Swizzle → α
  index : α → Nat → α
  native : Form → List α → α

namespace Value

variable {κ ι α : Type}

@[elab_as_elim, induction_eliminator]
theorem induct {motive : Value κ α → Prop} (leaf : ∀ a, motive (.leaf a))
    (record : ∀ t vs, (∀ v ∈ vs, motive v) → motive (.record t vs)) (v : Value κ α) : motive v :=
  @Value.rec κ α motive (fun vs => ∀ v ∈ vs, motive v) leaf record (by simp)
    (fun v vs hv hvs => by simpa using ⟨hv, hvs⟩) v

def leaf? : Value κ α → Option α
  | leaf a => some a
  | record _ _ => none

theorem eq_leaf_of_bind {v? : Option (Value κ α)} {a : α} (h : v?.bind leaf? = some a) :
    v? = some (leaf a) := by
  obtain ⟨v, rfl, hv⟩ := Option.bind_eq_some_iff.mp h
  cases v with
  | leaf b =>
      cases hv
      rfl
  | record t vs => cases hv

theorem eq_of_map_leaf {v? : Option (Value κ α)} {v : Value κ α}
    (h : (v?.bind leaf?).map leaf = some v) : v? = some v := by
  obtain ⟨a, ha, rfl⟩ := Option.map_eq_some_iff.mp h
  exact eq_leaf_of_bind ha

def field? : Value κ α → Nat → Option (Value κ α)
  | leaf _, _ => none
  | record _ vs, i => vs[i]?

def part? (v : Value κ α) : List Nat → Option (Value κ α)
  | [] => some v
  | i :: path => (v.field? i).bind fun w => w.part? path

theorem part?_append (v : Value κ α) (path rest : List Nat) :
    v.part? (path ++ rest) = (v.part? path).bind fun w => w.part? rest := by
  induction path generalizing v with
  | nil => rfl
  | cons i path ih =>
      rw [List.cons_append, part?, part?, Option.bind_assoc]
      congr 1
      funext w
      exact ih w

mutual

def retag (f : κ → ι) : Value κ α → Value ι α
  | leaf a => leaf a
  | record t vs => record (f t) (retagAll f vs)

def retagAll (f : κ → ι) : List (Value κ α) → List (Value ι α)
  | [] => []
  | v :: vs => retag f v :: retagAll f vs

end

theorem retagAll_eq_map (f : κ → ι) (vs : List (Value κ α)) : retagAll f vs = vs.map (retag f) := by
  induction vs with
  | nil => rfl
  | cons v vs ih => simp [retagAll, ih]

@[simp]
theorem leaf?_retag (f : κ → ι) (v : Value κ α) : (v.retag f).leaf? = v.leaf? := by
  cases v <;> rfl

def leaves? (vs : List (Value κ α)) : Option (List α) := vs.mapM leaf?

theorem leaves?_cons (v : Value κ α) (vs : List (Value κ α)) :
    leaves? (v :: vs) = v.leaf?.bind fun a => (leaves? vs).map (a :: ·) := Option.mapM_cons v vs

theorem leaves?_map_leaf (as : List α) :
    leaves? (as.map leaf : List (Value κ α)) = some as := by
  induction as with
  | nil => rfl
  | cons a as ih => simp [leaves?_cons, leaf?, ih]

section HasTy

variable (p : Program)

mutual

def HasTy : Value Nat α → Ty → Prop
  | leaf _, .leaf _ => True
  | record i vs, .record j =>
      i = j ∧ match p.fieldTys? i with
        | some tys => HasTys vs tys
        | none => False
  | _, _ => False

def HasTys : List (Value Nat α) → List Ty → Prop
  | [], [] => True
  | v :: vs, t :: ts => HasTy v t ∧ HasTys vs ts
  | _, _ => False

end

variable {p}

theorem HasTy.leaf {v : Value Nat α} {t : Leaf} (h : v.HasTy p (.leaf t)) : ∃ a, v = .leaf a := by
  cases v with
  | leaf a => exact ⟨a, rfl⟩
  | record i vs => simp [HasTy] at h

theorem HasTy.record {v : Value Nat α} {i : Nat} (h : v.HasTy p (.record i)) :
    ∃ vs tys, v = .record i vs ∧ p.fieldTys? i = some tys ∧ HasTys p vs tys := by
  cases v with
  | leaf a => simp [HasTy] at h
  | record j vs =>
      rw [HasTy] at h
      obtain ⟨rfl, h⟩ := h
      split at h
      next tys ht => exact ⟨vs, tys, rfl, ht, h⟩
      next => exact h.elim

theorem hasTy_record {i : Nat} {vs : List (Value Nat α)} {tys : List Ty}
    (ht : p.fieldTys? i = some tys) (h : HasTys p vs tys) :
    (Value.record i vs).HasTy p (.record i) := by
  rw [HasTy, ht]
  exact ⟨rfl, h⟩

theorem HasTys.length_eq {vs : List (Value Nat α)} {tys : List Ty} (h : HasTys p vs tys) :
    vs.length = tys.length := by
  induction vs generalizing tys with
  | nil =>
      cases tys with
      | nil => rfl
      | cons t ts => simp [HasTys] at h
  | cons v vs ih =>
      cases tys with
      | nil => simp [HasTys] at h
      | cons t ts => simp [ih h.2]

theorem HasTys.getElem? {vs : List (Value Nat α)} {tys : List Ty} (h : HasTys p vs tys) {i : Nat}
    {t : Ty} (ht : tys[i]? = some t) : ∃ v, vs[i]? = some v ∧ v.HasTy p t := by
  induction vs generalizing tys i with
  | nil =>
      cases tys with
      | nil => simp at ht
      | cons t ts => simp [HasTys] at h
  | cons v vs ih =>
      cases tys with
      | nil => simp at ht
      | cons t' ts =>
          cases i with
          | zero =>
              obtain rfl : t' = t := by simpa using ht
              exact ⟨v, rfl, h.1⟩
          | succ i => exact ih h.2 ht

theorem HasTys.leaves {vs : List (Value Nat α)} {leaves : List Leaf}
    (h : HasTys p vs (leaves.map .leaf)) :
    ∃ as : List α, vs = as.map .leaf ∧ as.length = leaves.length := by
  induction vs generalizing leaves with
  | nil =>
      cases leaves with
      | nil => exact ⟨[], rfl, rfl⟩
      | cons t ts => simp [HasTys] at h
  | cons v vs ih =>
      cases leaves with
      | nil => simp [HasTys] at h
      | cons t ts =>
          obtain ⟨a, rfl⟩ := h.1.leaf
          obtain ⟨as, rfl, hl⟩ := ih h.2
          exact ⟨a :: as, rfl, by simp [hl]⟩

end HasTy

end Value

end ShaderDialects
