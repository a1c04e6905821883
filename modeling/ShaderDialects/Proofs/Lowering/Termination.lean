import ShaderDialects.Proofs.Lowering.Faults

theorem List.mapM_congr_of_mem {ε α β : Type} {f g : α → Except ε β} (xs : List α)
    (h : ∀ x ∈ xs, f x = g x) : xs.mapM f = xs.mapM g := by
  induction xs with
  | nil => rfl
  | cons x xs ih =>
      obtain ⟨hx, hxs⟩ := List.forall_mem_cons.mp h
      rw [List.mapM_cons, List.mapM_cons, hx, ih hxs]

theorem List.anyM_congr_of_mem {ε α : Type} {f g : α → Except ε Bool} (xs : List α)
    (h : ∀ x ∈ xs, f x = g x) : xs.anyM f = xs.anyM g := by
  induction xs with
  | nil => rfl
  | cons x xs ih =>
      obtain ⟨hx, hxs⟩ := List.forall_mem_cons.mp h
      rw [List.anyM, List.anyM, hx, ih hxs]

namespace ShaderDialects

/-- From this depth on, the depth that a recursion is given makes no difference to its result. -/
def Steady {β : Type} (depth : Nat) (run : Nat → β) (result : β) : Prop :=
  ∀ k, depth ≤ k → run k = result

namespace Program

variable {p : Program}

inductive Inside (p : Program) : Ty → Ty → Prop
  | field {i : Nat} {r : Record} {f : Field} (hr : p.records[i]? = some r) (hf : f ∈ r.fields) :
      Inside p f.ty (.record i)

theorem Resolved.acc {depth : Nat} {ty : Ty} (h : p.Resolved depth ty) : Acc p.Inside ty := by
  induction depth generalizing ty with
  | zero =>
      cases ty with
      | leaf t => exact .intro _ fun _ hin => by cases hin
      | record i => exact h.elim
  | succ depth ih =>
      refine .intro _ fun _ hin => ?_
      obtain ⟨hr, hf⟩ := hin
      obtain ⟨r, hr', hfields⟩ := h
      cases hr.symm.trans hr'
      exact ih (hfields _ hf)

variable {ι β : Type}

/-- A recursion over types that goes from a record to its fields, each time with one less of the
depth. The other arguments of a call are of type `ι`. -/
structure Recursion (p : Program) (run : Nat → ι → Ty → β) : Prop where
  leaf : ∀ j k x t, run j x (.leaf t) = run k x (.leaf t)
  record : ∀ j k x i r, p.records[i]? = some r →
    (∀ f ∈ r.fields, ∀ y, run j y f.ty = run k y f.ty) →
    run (j + 1) x (.record i) = run (k + 1) x (.record i)

theorem Recursion.eq_of_resolved {run : Nat → ι → Ty → β} (R : p.Recursion run) {depth : Nat}
    {ty : Ty} (h : p.Resolved depth ty) {j k : Nat} (hj : depth ≤ j) (hk : depth ≤ k) (x : ι) :
    run j x ty = run k x ty := by
  induction depth generalizing ty j k x with
  | zero =>
      cases ty with
      | leaf t => exact R.leaf j k x t
      | record i => exact h.elim
  | succ depth ih =>
      cases ty with
      | leaf t => exact R.leaf j k x t
      | record i =>
          obtain ⟨r, hr, hfields⟩ := h
          obtain ⟨j, rfl⟩ : ∃ j', j = j' + 1 := ⟨j - 1, by omega⟩
          obtain ⟨k, rfl⟩ : ∃ k', k = k' + 1 := ⟨k - 1, by omega⟩
          exact R.record j k x i r hr fun f hf y =>
            ih (hfields f hf) (by omega) (by omega) y

theorem Recursion.steady {run : Nat → ι → Ty → β} (R : p.Recursion run) {depth : Nat}
    {ty : Ty} (h : p.Resolved depth ty) (x : ι) : Steady depth (run · x ty) (run depth x ty) :=
  fun _ hk => R.eq_of_resolved h hk (Nat.le_refl depth) x

theorem recursion_flattenWithin : p.Recursion fun depth (x : String × List Nat) ty =>
    p.flattenWithin depth x.1 x.2 ty where
  leaf j k x t := by rw [flattenWithin, flattenWithin]
  record j k x i r hr h := by
    have hparts := List.mapM_congr_of_mem r.fields.zipIdx fun fk hfk =>
      h fk.1 (List.fst_mem_of_mem_zipIdx hfk) (x.1 ++ "." ++ fk.1.name, x.2 ++ [fk.2])
    rw [flattenWithin_fields hr, flattenWithin_fields hr, hparts]

theorem recursion_holdsSamplerWithin :
    p.Recursion fun depth (_ : Unit) ty => p.holdsSamplerWithin depth ty where
  leaf j k x t := by rw [holdsSamplerWithin, holdsSamplerWithin]
  record j k x i r hr h := by
    rw [holdsSamplerWithin_fields hr, holdsSamplerWithin_fields hr]
    exact List.anyM_congr_of_mem r.fields fun f hf => h f hf ()

end Program

/-! The types that occur in a shader and in the declarations of a closure. -/

def Expr.ownTys (e : Expr) : List Ty :=
  e.ty :: match e with
    | bind _ b _ _ => [b.ty]
    | construct _ r _ => [.record r]
    | _ => []

def Expr.tys (e : Expr) : List Ty := e.nodes.flatMap ownTys

def TermKind.tys : TermKind → List Ty
  | function params result body => params.map Binding.ty ++ result :: body.tys
  | value ty body => ty :: body.tys
  | external _ signature => signature.leaves.map .leaf

def Step.binderTys : Step → List Ty
  | bind b _ => [b.ty]
  | discard _ _ => []

def Shader.tys (s : Shader) : List Ty :=
  s.inputs.map (·.ty) ++ s.outputs.map (·.ty) ++ s.parameters.map (·.ty)
    ++ s.steps.flatMap Step.binderTys ++ s.exprs.flatMap Expr.tys

def Program.tysIn (p : Program) : DeclId → List Ty
  | .record i => .record i :: (p.records[i]?.elim [] fun r => r.fields.map Field.ty)
  | .term i => p.terms[i]?.elim [] fun t => t.kind.tys

theorem Expr.mentions_of_ownTys {e : Expr} {ty : Ty} (h : ty ∈ e.ownTys) :
    ty.mentions ⊆ e.ownMentions := by
  intro d hd
  rcases List.mem_cons.mp h with rfl | h
  · exact List.mem_append_left _ hd
  · refine List.mem_append_right _ ?_
    cases e with
    | bind _ b _ _ | construct _ r _ =>
        obtain rfl := List.mem_singleton.mp h
        exact hd
    | _ => cases h

theorem Expr.mentions_of_tys {e : Expr} {ty : Ty} (h : ty ∈ e.tys) : ty.mentions ⊆ e.mentions := by
  obtain ⟨x, hx, h⟩ := List.mem_flatMap.mp h
  exact fun d hd => List.mem_flatMap.mpr ⟨x, hx, mentions_of_ownTys h hd⟩

theorem TermKind.mentions_of_tys {k : TermKind} {ty : Ty} (h : ty ∈ k.tys) :
    ty.mentions ⊆ k.mentions := by
  intro d hd
  cases k with
  | function params result body =>
      rcases List.mem_append.mp h with h | h
      · obtain ⟨b, hb, rfl⟩ := List.mem_map.mp h
        exact List.mem_append_left _ (List.mem_append_left _ (List.mem_flatMap.mpr ⟨b, hb, hd⟩))
      · rcases List.mem_cons.mp h with rfl | h
        · exact List.mem_append_left _ (List.mem_append_right _ hd)
        · exact List.mem_append_right _ (Expr.mentions_of_tys h hd)
  | value result body =>
      rcases List.mem_cons.mp h with rfl | h
      · exact List.mem_append_left _ hd
      · exact List.mem_append_right _ (Expr.mentions_of_tys h hd)
  | external symbol signature =>
      obtain ⟨t, _, rfl⟩ := List.mem_map.mp h
      cases hd

theorem Shader.mem_references_of_tys {s : Shader} {ty : Ty} (h : ty ∈ s.tys) :
    ty.mentions ⊆ s.references := by
  intro d hd
  rw [tys, List.append_assoc, List.append_assoc, List.append_assoc] at h
  rcases List.mem_append.mp h with h | h
  · obtain ⟨i, hi, rfl⟩ := List.mem_map.mp h
    have hall : d ∈ s.inputs.flatMap fun i => i.ty.mentions := List.mem_flatMap.mpr ⟨i, hi, hd⟩
    simp only [references, List.mem_eraseDups, List.mem_append, hall, true_or]
  rcases List.mem_append.mp h with h | h
  · obtain ⟨o, ho, rfl⟩ := List.mem_map.mp h
    have hall : d ∈ s.outputs.flatMap fun o => o.ty.mentions := List.mem_flatMap.mpr ⟨o, ho, hd⟩
    simp only [references, List.mem_eraseDups, List.mem_append, hall, true_or, or_true]
  rcases List.mem_append.mp h with h | h
  · obtain ⟨q, hq, rfl⟩ := List.mem_map.mp h
    exact mem_references_of_parameter hq hd
  rcases List.mem_append.mp h with h | h
  · obtain ⟨step, hstep, h⟩ := List.mem_flatMap.mp h
    refine mem_references_of_step hstep ?_
    cases step with
    | bind b value =>
        obtain rfl := List.mem_singleton.mp h
        exact hd
    | discard _ _ => cases h
  · obtain ⟨e, he, h⟩ := List.mem_flatMap.mp h
    exact mem_references_of_expr he (Expr.mentions_of_tys h hd)

namespace Linear

variable {p : Program} {order : List DeclId}

theorem mentions_of_tysIn (hl : Linear p order) {d : DeclId} (hd : d ∈ order) {ty : Ty}
    (h : ty ∈ p.tysIn d) : ty.mentions ⊆ order := by
  obtain ⟨pre, post, ho⟩ := List.append_of_mem hd
  have hpre {x : DeclId} (hx : x ∈ pre) : x ∈ order := ho ▸ List.mem_append_left _ hx
  intro x hx
  cases d with
  | record i =>
      rcases List.mem_cons.mp h with rfl | h
      · rwa [List.mem_singleton.mp hx]
      · obtain ⟨r, hr, hm⟩ := hl.record ho
        rw [hr] at h
        obtain ⟨f, hf, rfl⟩ := List.mem_map.mp h
        exact hpre (hm x (List.mem_flatMap.mpr ⟨f, hf, hx⟩))
  | term i =>
      obtain ⟨t, ht, hm⟩ := hl.term ho
      rw [Program.tysIn, ht] at h
      exact hpre (hm x (TermKind.mentions_of_tys h hx))

theorem resolved_ty (hl : Linear p order) {ty : Ty} (h : ty.mentions ⊆ order) :
    p.Resolved (Closure.records (.placed order)).length ty := by
  cases ty with
  | leaf t => exact .leaf
  | record i => exact hl.resolved (List.append_nil order).symm (h (List.mem_singleton_self _))

end Linear

namespace Lowering

def Error.IsFault : Error → Prop
  | fault _ => True
  | builtin _ | malformed _ _ | undeclared _ => False

namespace Context

variable {c : Context}

theorem recursion_rebuildWithin (q : Nat) :
    c.program.Recursion fun depth path ty => c.rebuildWithin depth q path ty where
  leaf j k path t := by rw [rebuildWithin, rebuildWithin]
  record j k path i r hr h := by
    have hrecord : c.record i = .ok r := Except.mapError_of_ok (Program.record_eq_ok.mpr hr)
    rw [rebuildWithin, rebuildWithin, hrecord]
    have hargs := List.mapM_congr_of_mem r.fields.zipIdx fun fk hfk =>
      h fk.1 (List.fst_mem_of_mem_zipIdx hfk) (path ++ [fk.2])
    refine congrArg (c.constructible i >>= ·) (funext fun _ => ?_)
    exact congrArg
      (· >>= fun args => c.structNames i >>= fun names => pure (Dialect.Expr.user names.name args))
      hargs

theorem structNames_avoids {i depth : Nat} (h : c.program.Resolved depth (.record i)) :
    (c.structNames i).Avoids Error.IsFault := by
  rw [structNames]
  cases c.structs.lookup i with
  | some names => exact .ok
  | none => exact Except.Avoids.bind (.of_exists (exists_record h)) fun r => .error not_false

theorem faultless_rebuildWithin {depth : Nat} {ty : Ty} (h : c.program.Resolved depth ty)
    (hd : depth ≤ c.program.records.length) (q : Nat) (path : List Nat) :
    Faultless (c.rebuildWithin depth q path ty) := by
  let R (depth : Nat) (ty : Ty) : Prop :=
    c.program.Resolved depth ty ∧ depth ≤ c.program.records.length
  have hown (depth i : Nat) (h : R depth (.record i)) :
      (c.constructible i).Avoids Error.IsFault ∧ (c.record i).Avoids Error.IsFault ∧
        (c.structNames i).Avoids Error.IsFault := by
    have hstray := constructible_avoids (h.1.mono h.2)
    refine ⟨fun e he => ?_, .of_exists (exists_record h.1), structNames_avoids h.1⟩
    cases e with
    | fault f => exact hstray _ trivial
    | _ => exact he.elim
  have hfields (depth i : Nat) (r : Record) (h : R (depth + 1) (.record i))
      (hr : c.program.records[i]? = some r) (f : Field) (hf : f ∈ r.fields) : R depth f.ty := by
    obtain ⟨⟨r', hr', hfields⟩, hd⟩ := h
    cases hr.symm.trans hr'
    exact ⟨hfields f hf, Nat.le_of_succ_le hd⟩
  have hnarrow : Narrow Error.IsFault c.shader.name := ⟨fun _ => not_false, fun _ _ => not_false⟩
  have havoids : (c.rebuildWithin depth q path ty).Avoids Error.IsFault :=
    avoids_rebuildWithin hnarrow (fun i h => h.1.elim) hown hfields ⟨h, hd⟩
  exact fun f => havoids _ trivial

end Context

end Lowering

/-- Where a shader has a closure, every recursion through records ends on the types that occur in
the shader and in the declarations of the closure, whatever other records the program has. No record
among them holds itself, so going from a record to what it holds comes to an end. Flattening and the
search for samplers have a result, and the rebuilding of a parameter is not refused for a fault of
the program. These results are the same at any depth from the number of the closure's records on,
and the depth that is given, that of all the program's records, is one of those. -/
theorem Closure.recursion_steady {p : Program} {s : Shader} {closure : Closure}
    (h : Closure.ofShader p s = .ok closure) :
    closure.records.length ≤ p.records.length ∧
    ∀ ty, ty ∈ s.tys ∨ (∃ d ∈ closure.order, ty ∈ p.tysIn d) →
      Acc p.Inside ty ∧
      (∀ name path, ∃ us,
        Steady closure.records.length (p.flattenWithin · name path ty) (.ok us)) ∧
      (∃ b, Steady closure.records.length (p.holdsSamplerWithin · ty) (.ok b)) ∧
      ∀ c : Lowering.Context, c.program = p → ∀ q path, ∃ result, Lowering.Faultless result ∧
        Steady closure.records.length (c.rebuildWithin · q path ty) result := by
  obtain ⟨hl, hs⟩ := ofShader_spec h
  refine ⟨hl.length_records_le, fun ty hty => ?_⟩
  have hmentions : ty.mentions ⊆ closure.order := by
    rcases hty with hty | ⟨d, hd, hty⟩
    · exact fun d hd => hs (Shader.mem_references_of_tys hty hd)
    · exact hl.mentions_of_tysIn hd hty
  have hresolved : p.Resolved closure.records.length ty := hl.resolved_ty hmentions
  refine ⟨hresolved.acc, fun name path => ?_, ?_, ?_⟩
  · obtain ⟨us, hus⟩ := hresolved.flattenWithin name path
    exact ⟨us, hus ▸ Program.recursion_flattenWithin.steady hresolved (name, path)⟩
  · obtain ⟨b, hb⟩ := hresolved.holdsSamplerWithin
    exact ⟨b, hb ▸ Program.recursion_holdsSamplerWithin.steady hresolved ()⟩
  · rintro c rfl q path
    exact ⟨_, c.faultless_rebuildWithin hresolved hl.length_records_le q path,
      (Lowering.Context.recursion_rebuildWithin q).steady hresolved path⟩

/-! A shader that reads a record of records, in a program with one more record, which holds itself. -/
namespace Coiled

def float : Ty := .leaf .float

def program : Program where
  records := [
    ⟨"Lamp", [⟨"shade", float⟩, ⟨"height", float⟩], {}⟩,
    ⟨"Scene", [⟨"key", .record 0⟩, ⟨"fill", .record 0⟩], {}⟩,
    ⟨"Coil", [⟨"inner", .record 2⟩, ⟨"width", float⟩], {}⟩]

def shader : Shader where
  name := "lit"
  stage := .fragment
  outputs := [⟨⟨"shade", float, {}⟩, .attachment 0⟩]
  parameters := [⟨"scene", .record 1, {}⟩]
  assignments := [⟨0, .field ⟨float, {}⟩
    (.field ⟨.record 0, {}⟩ (.parameter ⟨.record 1, {}⟩ 0) 1) 0⟩]

def closure : Closure := .placed [.record 0, .record 1]

theorem not_acc_coil : ¬ Acc program.Inside (.record 2) := by
  have hself : program.Inside (.record 2) (.record 2) :=
    .field (r := ⟨"Coil", [⟨"inner", .record 2⟩, ⟨"width", float⟩], {}⟩)
      (f := ⟨"inner", .record 2⟩) rfl List.mem_cons_self
  intro h
  generalize Ty.record 2 = ty at h hself
  induction h with
  | intro ty _ ih => exact ih ty hself hself

end Coiled

open Coiled in
theorem Closure.recursion_steady_coiled :
    Closure.ofShader program shader = .ok closure ∧
      ¬ Acc program.Inside (.record 2) ∧
      program.flatten "coil" (.record 2) = .error (.endless 2) ∧
      Acc program.Inside (.record 1) ∧
      (∃ us, Steady 2 (program.flattenWithin · "scene" [] (.record 1)) (.ok us)) ∧
      ∃ b, Steady 2 (program.holdsSamplerWithin · (.record 1)) (.ok b) := by
  have h : Closure.ofShader program shader = .ok closure := rfl
  obtain ⟨-, hall⟩ := Closure.recursion_steady h
  obtain ⟨hacc, hflatten, hsampler, -⟩ := hall (.record 1) (.inl (by decide))
  exact ⟨h, not_acc_coil, rfl, hacc, hflatten "scene" [], hsampler⟩

end ShaderDialects
