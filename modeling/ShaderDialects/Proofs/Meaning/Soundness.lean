import ShaderDialects.Proofs.Builtin.Closed
import ShaderDialects.Proofs.Meaning.Evaluation

namespace ShaderDialects

open Value (HasTys)

variable {α : Type}

def TypedLocals (p : Program) (Γ : List (Nat × Ty)) (locals : List (Nat × Val α)) : Prop :=
  ∀ id ty, Γ.lookup id = some ty → ∃ v, locals.lookup id = some v ∧ v.HasTy p ty

theorem TypedLocals.bind {p : Program} {Γ : List (Nat × Ty)} {locals : List (Nat × Val α)}
    (h : TypedLocals p Γ locals) {b : Binding} {v : Val α} (hv : v.HasTy p b.ty) :
    TypedLocals p ((b.id, b.ty) :: Γ) ((b.id, v) :: locals) := by
  intro id ty hl
  by_cases hid : id = b.id
  · subst hid
    obtain rfl : b.ty = ty := by simpa using hl
    exact ⟨v, by simp, hv⟩
  · rw [List.lookup_cons, beq_false_of_ne hid] at hl ⊢
    exact h id ty hl

theorem typedLocals_params {p : Program} {params : List Binding} {args : List (Val α)}
    (h : HasTys p args (params.map Binding.ty)) :
    TypedLocals p (params.map fun b => (b.id, b.ty)) ((params.map Binding.id).zip args) := by
  induction params generalizing args with
  | nil => intro id ty hl; simp at hl
  | cons b params ih =>
      cases args with
      | nil => simp [HasTys] at h
      | cons v args => exact (ih h.2).bind h.1

structure World.Supplies (w : World α) (s : Shader) : Prop where
  inputs : w.inputs.length = s.inputs.length
  leaf : ∀ q ∈ s.inputs, ∃ t, q.ty = .leaf t
  parameters : HasTys w.program w.parameters (s.parameters.map Slot.ty)

namespace Meaning

variable (p : Program) (m : Meaning α) (ds : List DeclId)

/-- What terms give has the type that they are declared with. -/
structure Sound : Prop where
  read : ∀ t ty v, .term t ∈ ds → p.valueTy? t = some ty → m.read t = some v → v.HasTy p ty
  apply : ∀ f tys ty args v, .term f ∈ ds → p.functionTy? f = some (tys, ty) →
    HasTys p args tys → m.apply f args = some v → v.HasTy p ty

structure Total : Prop where
  read : ∀ t ty, .term t ∈ ds → p.valueTy? t = some ty → ∃ v, m.read t = some v
  apply : ∀ f tys ty args, .term f ∈ ds → p.functionTy? f = some (tys, ty) →
    HasTys p args tys → ∃ v, m.apply f args = some v

variable {p m ds} {ds' : List DeclId}

theorem Sound.mono (h : m.Sound p ds) (hs : ∀ d ∈ ds', d ∈ ds) : m.Sound p ds' :=
  ⟨fun t ty v ht => h.read t ty v (hs _ ht),
    fun f tys ty args v hf => h.apply f tys ty args v (hs _ hf)⟩

theorem Total.mono (h : m.Total p ds) (hs : ∀ d ∈ ds', d ∈ ds) : m.Total p ds' :=
  ⟨fun t ty ht => h.read t ty (hs _ ht), fun f tys ty args hf => h.apply f tys ty args (hs _ hf)⟩

end Meaning

namespace Expr

variable {w : World α} {m : Meaning α} {s : Shader} {Γ : List (Nat × Ty)}
  {locals : List (Nat × Val α)}

theorem evalAll_hasTys {es : List Expr}
    (h : ∀ e ∈ es, ∀ v, e.eval w m locals = some v → v.HasTy w.program e.ty)
    {vs : List (Val α)} (hvs : evalAll w m locals es = some vs) :
    HasTys w.program vs (es.map ty) := by
  induction es generalizing vs with
  | nil =>
      cases hvs
      trivial
  | cons e es ih =>
      obtain ⟨v, hv, hrest⟩ := Option.bind_eq_some_iff.mp hvs
      obtain ⟨us, hus, rfl⟩ := Option.map_eq_some_iff.mp hrest
      exact ⟨h e (by simp) v hv, ih (fun e he => h e (by simp [he])) hus⟩

theorem eval_input {n : Note} {i : Nat} (ht : (input n i).Typed w.program s Γ)
    (hw : w.Supplies s) :
    ∃ a t, w.inputs[i]? = some a ∧ n.ty = .leaf t := by
  obtain ⟨q, hq, hn⟩ := Option.map_eq_some_iff.mp ht
  obtain ⟨t, hleaf⟩ := hw.leaf q (List.mem_of_getElem? hq)
  have hi : i < w.inputs.length := hw.inputs ▸ (List.getElem?_eq_some_iff.mp hq).1
  exact ⟨w.inputs[i], t, List.getElem?_eq_getElem hi, hn.symm.trans hleaf⟩

theorem eval_parameter {n : Note} {i : Nat} (ht : (parameter n i).Typed w.program s Γ)
    (hw : w.Supplies s) : ∃ v, w.parameters[i]? = some v ∧ v.HasTy w.program n.ty := by
  rw [Typed, ← List.getElem?_map] at ht
  exact hw.parameters.getElem? ht

theorem field_hasTy {p : Program} {v : Val α} {base ty : Ty} {i : Nat} (hv : v.HasTy p base)
    (hf : p.fieldTy? base i = some ty) : ∃ u, v.field? i = some u ∧ u.HasTy p ty := by
  cases base with
  | leaf t => simp [Program.fieldTy?] at hf
  | record r =>
      obtain ⟨vs, tys, rfl, htys, hvs⟩ := hv.record
      rw [Program.fieldTy?, htys] at hf
      exact hvs.getElem? hf

theorem leaf_of_swizzled {base ty : Ty} {sw : Swizzle} (h : base.swizzled? sw = some ty) :
    ∃ t u, base = .leaf t ∧ ty = .leaf u := by
  obtain ⟨u, hu, rfl⟩ := Option.map_eq_some_iff.mp h
  cases base with
  | leaf t => exact ⟨t, u, rfl, rfl⟩
  | record r => simp [Ty.leaf?] at hu

theorem eval_hasTy (hw : w.Supplies s) {e : Expr} (ht : e.Typed w.program s Γ)
    (hm : m.Sound w.program e.mentions) (hl : TypedLocals w.program Γ locals) {v : Val α}
    (hv : e.eval w m locals = some v) : v.HasTy w.program e.ty := by
  have child {e child : Expr} (hm : m.Sound w.program e.mentions) (hc : child ∈ e.children) :
      m.Sound w.program child.mentions := hm.mono fun _ => mentions_of_child hc
  induction e generalizing Γ locals v with
  | literal n c =>
      cases hv
      change Value.HasTy _ _ n.ty
      rw [show n.ty = _ from ht]
      trivial
  | bound n id =>
      obtain ⟨u, hu, hty⟩ := hl id n.ty ht
      cases hu.symm.trans hv
      exact hty
  | term n t => exact hm.read t n.ty v (mentions_of_own (by simp [ownMentions])) ht hv
  | input n i =>
      obtain ⟨a, t, ha, hn⟩ := eval_input ht hw
      rw [eval, ha] at hv
      cases hv
      change Value.HasTy _ _ n.ty
      rw [hn]
      trivial
  | parameter n i =>
      obtain ⟨u, hu, hty⟩ := eval_parameter ht hw
      cases hu.symm.trans hv
      exact hty
  | apply n f args ih =>
      obtain ⟨vs, hvs, hv⟩ := Option.bind_eq_some_iff.mp hv
      have hargs := (typedAll_iff _ _).mp ht.1
      have htys := evalAll_hasTys (fun e he v hv => ih e he (hargs e he) (child hm he) hl hv) hvs
      exact hm.apply f _ _ vs v (mentions_of_own (by simp [ownMentions])) ht.2 htys hv
  | cond n c a r ihc iha ihr =>
      obtain ⟨_, hta, htr, _, hna, hnr⟩ := ht
      obtain ⟨b, _, hv⟩ := Option.bind_eq_some_iff.mp hv
      change Value.HasTy _ _ n.ty
      split at hv
      · rw [← hna]
        exact iha hta (child hm (by simp [children])) hl hv
      · rw [← hnr]
        exact ihr htr (child hm (by simp [children])) hl hv
  | bind n b value body ihv ihb =>
      obtain ⟨htv, htb, hb, hn⟩ := ht
      obtain ⟨u, hu, hv⟩ := Option.bind_eq_some_iff.mp hv
      have hty := ihv htv (child hm (by simp [children])) hl hu
      change Value.HasTy _ _ n.ty
      rw [← hn]
      exact ihb htb (child hm (by simp [children])) (hl.bind (hb ▸ hty)) hv
  | construct n r fields ih =>
      obtain ⟨hts, hn, hr⟩ := ht
      obtain ⟨vs, hvs, rfl⟩ := Option.map_eq_some_iff.mp hv
      have hargs := (typedAll_iff _ _).mp hts
      have htys := evalAll_hasTys (fun e he v hv => ih e he (hargs e he) (child hm he) hl hv) hvs
      change Value.HasTy _ _ n.ty
      rw [hn]
      exact Value.hasTy_record hr htys
  | field n base i ih =>
      obtain ⟨u, hu, hv⟩ := Option.bind_eq_some_iff.mp hv
      obtain ⟨x, hx, hty⟩ := field_hasTy (ih ht.1 (child hm (by simp [children])) hl hu) ht.2
      cases hx.symm.trans hv
      exact hty
  | swizzle n base sw ih =>
      obtain ⟨a, _, rfl⟩ := Option.map_eq_some_iff.mp hv
      obtain ⟨_, u, _, hn⟩ := leaf_of_swizzled ht.2
      change Value.HasTy _ _ n.ty
      rw [hn]
      trivial

theorem eval_path (hw : w.Supplies s) {e : Expr} (ht : e.Typed w.program s Γ) {q : Nat}
    {path : List Nat} (hp : e.parameterPath? = some (q, path)) :
    ∃ root v, w.parameters[q]? = some root ∧ root.part? path = some v ∧
      v.HasTy w.program e.ty ∧ e.eval w m locals = some v := by
  induction e generalizing path with
  | parameter n i =>
      obtain ⟨rfl, rfl⟩ : i = q ∧ [] = path := by simpa [parameterPath?] using hp
      obtain ⟨v, hv, hty⟩ := eval_parameter ht hw
      exact ⟨v, v, hv, rfl, hty, hv⟩
  | field n base i ih =>
      obtain ⟨⟨q', start⟩, hb, he⟩ := Option.map_eq_some_iff.mp hp
      obtain ⟨rfl, rfl⟩ : q' = q ∧ start ++ [i] = path := by simpa using he
      obtain ⟨root, v, hroot, hpart, hty, hv⟩ := ih ht.1 hb
      obtain ⟨u, hu, htu⟩ := field_hasTy hty ht.2
      refine ⟨root, u, hroot, ?_, htu, by simp [eval, hv, hu]⟩
      rw [Value.part?_append, hpart]
      simp [Value.part?, hu]
  | _ => simp [parameterPath?] at hp

theorem evalAll_eq_some {es : List Expr} (h : ∀ e ∈ es, ∃ v, e.eval w m locals = some v) :
    ∃ vs, evalAll w m locals es = some vs := by
  induction es with
  | nil => exact ⟨[], rfl⟩
  | cons e es ih =>
      obtain ⟨v, hv⟩ := h e (by simp)
      obtain ⟨vs, hvs⟩ := ih fun e he => h e (by simp [he])
      exact ⟨v :: vs, by simp [evalAll, hv, hvs]⟩

theorem eval_eq_some (hw : w.Supplies s) {e : Expr} (ht : e.Typed w.program s Γ)
    (hm : m.Sound w.program e.mentions) (hx : m.Total w.program e.mentions)
    (hl : TypedLocals w.program Γ locals) : ∃ v, e.eval w m locals = some v := by
  have sound {e child : Expr} (hm : m.Sound w.program e.mentions) (hc : child ∈ e.children) :
      m.Sound w.program child.mentions := hm.mono fun _ => mentions_of_child hc
  have total {e child : Expr} (hx : m.Total w.program e.mentions) (hc : child ∈ e.children) :
      m.Total w.program child.mentions := hx.mono fun _ => mentions_of_child hc
  induction e generalizing Γ locals with
  | literal n c => exact ⟨_, rfl⟩
  | bound n id =>
      obtain ⟨u, hu, _⟩ := hl id n.ty ht
      exact ⟨u, hu⟩
  | term n t => exact hx.read t n.ty (mentions_of_own (by simp [ownMentions])) ht
  | input n i =>
      obtain ⟨a, _, ha, _⟩ := eval_input ht hw
      exact ⟨.leaf a, by simp [eval, ha]⟩
  | parameter n i =>
      obtain ⟨u, hu, _⟩ := eval_parameter ht hw
      exact ⟨u, hu⟩
  | apply n f args ih =>
      have hargs := (typedAll_iff _ _).mp ht.1
      obtain ⟨vs, hvs⟩ := evalAll_eq_some
        fun e he => ih e he (hargs e he) (sound hm he) (total hx he) hl
      have htys := evalAll_hasTys
        (fun e he v hv => eval_hasTy hw (hargs e he) (sound hm he) hl hv) hvs
      obtain ⟨v, hv⟩ := hx.apply f _ _ vs (mentions_of_own (by simp [ownMentions])) ht.2 htys
      exact ⟨v, by simp [eval, hvs, hv]⟩
  | cond n c a r ihc iha ihr =>
      obtain ⟨htc, hta, htr, hc, _, _⟩ := ht
      have hmc : m.Sound w.program c.mentions := sound hm (by simp [children])
      obtain ⟨u, hu⟩ := ihc htc hmc (total hx (by simp [children])) hl
      obtain ⟨b, rfl⟩ := (hc ▸ eval_hasTy hw htc hmc hl hu).leaf
      by_cases hb : w.interpretation.truth b = true
      · obtain ⟨v, hv⟩ := iha hta (sound hm (by simp [children])) (total hx (by simp [children])) hl
        exact ⟨v, by simp [eval, hu, Value.leaf?, hb, hv]⟩
      · obtain ⟨v, hv⟩ := ihr htr (sound hm (by simp [children])) (total hx (by simp [children])) hl
        exact ⟨v, by simp [eval, hu, Value.leaf?, hb, hv]⟩
  | bind n b value body ihv ihb =>
      obtain ⟨htv, htb, hb, _⟩ := ht
      have hmv : m.Sound w.program value.mentions := sound hm (by simp [children])
      obtain ⟨u, hu⟩ := ihv htv hmv (total hx (by simp [children])) hl
      have hty := eval_hasTy hw htv hmv hl hu
      obtain ⟨v, hv⟩ := ihb htb (sound hm (by simp [children])) (total hx (by simp [children]))
        (hl.bind (hb ▸ hty))
      exact ⟨v, by simp [eval, hu, hv]⟩
  | construct n r fields ih =>
      have hargs := (typedAll_iff _ _).mp ht.1
      obtain ⟨vs, hvs⟩ := evalAll_eq_some
        fun e he => ih e he (hargs e he) (sound hm he) (total hx he) hl
      exact ⟨.record r vs, by simp [eval, hvs]⟩
  | field n base i ih =>
      have hmb : m.Sound w.program base.mentions := sound hm (by simp [children])
      obtain ⟨u, hu⟩ := ih ht.1 hmb (total hx (by simp [children])) hl
      obtain ⟨v, hv, _⟩ := field_hasTy (eval_hasTy hw ht.1 hmb hl hu) ht.2
      exact ⟨v, by simp [eval, hu, hv]⟩
  | swizzle n base sw ih =>
      have hmb : m.Sound w.program base.mentions := sound hm (by simp [children])
      obtain ⟨u, hu⟩ := ih ht.1 hmb (total hx (by simp [children])) hl
      obtain ⟨t, _, hb, _⟩ := leaf_of_swizzled ht.2
      obtain ⟨a, rfl⟩ := (hb ▸ eval_hasTy hw ht.1 hmb hl hu).leaf
      exact ⟨.leaf (w.interpretation.swizzle a sw), by simp [eval, hu, Value.leaf?]⟩

end Expr

/-- What is declared for an external takes as many arguments as the external, or none if that is
read. -/
def Emulation.Body.Fits : Emulation.Body → Signature → Prop
  | function params _ _, .function leaves _ => params.length = leaves.length
  | constant _ _, .value _ => True
  | _, _ => False

/-- An emulation is of the shape of the external, and one that a table has brought along is closed,
so that it cannot get stuck. -/
def Decision.Fits : Decision → Signature → Prop
  | native _, _ => True
  | emulated e, signature =>
      (e.build signature).Fits signature ∧ (e.isCustom = true → (e.build signature).Closed)

theorem Emulation.closed_of_fits {e : Emulation} {signature : Signature}
    (h : (Decision.emulated e).Fits signature) : (e.build signature).Closed := by
  cases he : e.isCustom with
  | true => exact h.2 he
  | false => exact closed_build he signature

namespace World

variable {w : World α} {m : Meaning α} {s : Shader} {order : List DeclId}

theorem external_hasTy {symbol : String} {signature : Signature} {as : List α} {v : Val α}
    (h : w.external symbol signature as = some v) (t : Leaf) : v.HasTy w.program (.leaf t) := by
  rw [external] at h
  split at h
  · obtain ⟨a, _, rfl⟩ := Option.map_eq_some_iff.mp h
    trivial
  · simp at h

theorem external_eq {symbol : String} {signature : Signature} {d : Decision}
    (hr : w.table.resolve symbol signature.kind w.version w.stage = .ok d) (as : List α) :
    w.external symbol signature as = (d.eval w.interpretation signature as).map .leaf := by
  rw [external, hr]

theorem external_value_eq_some {symbol : String} {leaf : Leaf} {d : Decision}
    (hr : w.table.resolve symbol .value w.version w.stage = .ok d) (hf : d.Fits (.value leaf)) :
    ∃ v, w.external symbol (.value leaf) [] = some v := by
  cases d with
  | native form =>
      exact ⟨.leaf (w.interpretation.native form []), by rw [external_eq hr]; rfl⟩
  | emulated e =>
      have hc := Emulation.closed_of_fits hf
      replace hf := hf.1
      cases hb : e.build (.value leaf) with
      | function params result body => simp [hb, Emulation.Body.Fits] at hf
      | constant leaf' value =>
          rw [hb] at hc
          have hempty : Dialect.Env.Leaves [] ([] : Dialect.Env α) := by simp [Dialect.Env.Leaves]
          obtain ⟨a, ha⟩ := Dialect.Expr.Closed.eval w.interpretation hc hempty
          refine ⟨.leaf a, ?_⟩
          rw [external_eq hr]
          simp [Decision.eval, hb, Dialect.Expr.evalLeaf, ha, Value.leaf?]

theorem external_function_eq_some {symbol : String} {leaves : List Leaf} {r : Leaf}
    {d : Decision} (hr : w.table.resolve symbol .function w.version w.stage = .ok d)
    (hf : d.Fits (.function leaves r)) {as : List α} (hl : as.length = leaves.length) :
    ∃ v, w.external symbol (.function leaves r) as = some v := by
  cases d with
  | native form =>
      exact ⟨.leaf (w.interpretation.native form as), by rw [external_eq hr]; rfl⟩
  | emulated e =>
      have hc := Emulation.closed_of_fits hf
      replace hf := hf.1
      cases hb : e.build (.function leaves r) with
      | constant leaf value => simp [hb, Emulation.Body.Fits] at hf
      | function params result body =>
          rw [hb] at hc hf
          have hlen : (params.map Prod.fst).length = as.length := by
            rw [List.length_map, hl]
            exact hf
          obtain ⟨a, ha⟩ := Dialect.invoke_closed w.interpretation hc hlen []
          refine ⟨.leaf a, ?_⟩
          rw [external_eq hr]
          simp [Decision.eval, hb, ha, Value.leaf?]

section Closure

variable (hw : w.Supplies s) (hl : Linear w.program order)
  (ht : ∀ i t, .term i ∈ order → w.program.terms[i]? = some t → t.kind.Typed w.program s)
include hw hl ht

theorem sound_step (hm : m.Sound w.program order) : (w.step m).Sound w.program order := by
  have mentioned {i : Nat} {t : Term} (hi : .term i ∈ order) (h : w.program.terms[i]? = some t) :
      m.Sound w.program t.kind.mentions := by
    obtain ⟨pre, post, ho⟩ := List.append_of_mem hi
    obtain ⟨t', ht', hsub⟩ := hl.term ho
    cases ht'.symm.trans h
    exact hm.mono fun d hd => ho ▸ List.mem_append_left _ (hsub d hd)
  constructor
  · intro i ty v hi hty hv
    obtain ⟨t, h, ⟨body, hk⟩ | ⟨symbol, leaf, hk, rfl⟩⟩ := Program.valueTy?_cases hty
    · have hbody := ht i t hi h
      have hs := mentioned hi h
      rw [hk] at hbody hs
      rw [step_value h hk] at hv
      rw [← hbody.2]
      exact Expr.eval_hasTy hw hbody.1 (hs.mono fun d hd => by simp [TermKind.mentions, hd])
        (fun id ty h => by simp at h) hv
    · rw [step_external_read h hk] at hv
      exact external_hasTy hv leaf
  · intro i tys ty args v hi hty hargs hv
    obtain ⟨t, h, ⟨params, body, hk, rfl⟩ | ⟨symbol, leaves, r, hk, rfl, rfl⟩⟩ :=
      Program.functionTy?_cases hty
    · have hbody := ht i t hi h
      have hs := mentioned hi h
      rw [hk] at hbody hs
      rw [step_function h hk (by simpa using hargs.length_eq.symm)] at hv
      rw [← hbody.2]
      exact Expr.eval_hasTy hw hbody.1 (hs.mono fun d hd => by simp [TermKind.mentions, hd])
        (typedLocals_params hargs) hv
    · obtain ⟨as, rfl, _⟩ := hargs.leaves
      rw [step_external_apply h hk] at hv
      exact external_hasTy hv r

theorem sound_meaning : w.meaning.Sound w.program order := by
  have within (depth : Nat) : (w.meaningWithin depth).Sound w.program order := by
    induction depth with
    | zero => exact ⟨fun t ty v _ _ hv => by simp [meaningWithin] at hv,
        fun f tys ty args v _ _ _ hv => by simp [meaningWithin] at hv⟩
    | succ depth ih => exact sound_step hw hl ht ih
  exact within _

/-- No term of a linear order gets stuck, if all externals can be lowered and their emulations
fit them. -/
theorem total_meaning
    (hf : ∀ i t symbol signature, .term i ∈ order → w.program.terms[i]? = some t →
      t.kind = .external symbol signature →
      ∃ d, w.table.resolve symbol signature.kind w.version w.stage = .ok d ∧ d.Fits signature) :
    w.meaning.Total w.program order := by
  have hsound := sound_meaning hw hl ht
  have hstep := meaning_agree_step hl
  suffices h : ∀ pre post, order = pre ++ post → w.meaning.Total w.program pre from
    h order [] (by simp)
  intro pre
  induction pre using List.reverseRecOn with
  | nil => exact fun _ _ => ⟨by simp, by simp⟩
  | append_singleton pre d ih =>
      intro post ho
      rw [List.append_assoc, List.singleton_append] at ho
      have hpre := ih _ ho
      have hsub : ∀ x ∈ pre, x ∈ order := fun x hx => ho ▸ List.mem_append_left _ hx
      constructor
      · intro i ty hi hty
        rcases List.mem_append.mp hi with hi | hi
        · exact hpre.read i ty hi hty
        · obtain rfl := List.mem_singleton.mp hi
          have hmem : DeclId.term i ∈ order := by simp [ho]
          obtain ⟨t', h', hm⟩ := hl.term ho
          obtain ⟨t, h, ⟨body, hk⟩ | ⟨symbol, leaf, hk, rfl⟩⟩ := Program.valueTy?_cases hty
          · cases h.symm.trans h'
            have hbody := ht i _ hmem h
            rw [hk] at hbody hm
            have hb : ∀ d ∈ body.mentions, d ∈ pre :=
              fun d hd => hm d (by simp [TermKind.mentions, hd])
            rw [(hstep i hmem).1, step_value h hk]
            exact Expr.eval_eq_some hw hbody.1 (hsound.mono fun d hd => hsub d (hb d hd))
              (hpre.mono hb) (fun id ty h => by simp at h)
          · obtain ⟨d, hr, hd⟩ := hf i t _ _ hmem h hk
            rw [(hstep i hmem).1, step_external_read h hk]
            exact external_value_eq_some hr hd
      · intro i tys ty args hi hty hargs
        rcases List.mem_append.mp hi with hi | hi
        · exact hpre.apply i tys ty args hi hty hargs
        · obtain rfl := List.mem_singleton.mp hi
          have hmem : DeclId.term i ∈ order := by simp [ho]
          obtain ⟨t', h', hm⟩ := hl.term ho
          obtain ⟨t, h, ⟨params, body, hk, rfl⟩ | ⟨symbol, leaves, r, hk, rfl, rfl⟩⟩ :=
            Program.functionTy?_cases hty
          · cases h.symm.trans h'
            have hbody := ht i _ hmem h
            rw [hk] at hbody hm
            have hb : ∀ d ∈ body.mentions, d ∈ pre :=
              fun d hd => hm d (by simp [TermKind.mentions, hd])
            rw [(hstep i hmem).2, step_function h hk (by simpa using hargs.length_eq.symm)]
            exact Expr.eval_eq_some hw hbody.1 (hsound.mono fun d hd => hsub d (hb d hd))
              (hpre.mono hb) (typedLocals_params hargs)
          · obtain ⟨d, hr, hd⟩ := hf i t _ _ hmem h hk
            obtain ⟨as, rfl, has⟩ := hargs.leaves
            rw [(hstep i hmem).2, step_external_apply h hk]
            exact external_function_eq_some hr hd has

end Closure

end World

namespace Shader

variable {w : World α} {m : Meaning α} {s : Shader} {ds : List DeclId} (hw : w.Supplies s)
  (hm : m.Sound w.program ds) (hx : m.Total w.program ds)
include hw hm hx

theorem evalLeaf_eq_some {Γ : List (Nat × Ty)} {locals : List (Nat × Val α)} {e : Expr}
    (ht : e.Typed w.program s Γ) (hd : ∀ d ∈ e.mentions, d ∈ ds)
    (hl : TypedLocals w.program Γ locals) {t : Leaf} (he : e.ty = .leaf t) :
    ∃ a, e.evalLeaf w m locals = some a := by
  obtain ⟨v, hv⟩ := Expr.eval_eq_some hw ht (hm.mono hd) (hx.mono hd) hl
  obtain ⟨a, rfl⟩ := (he ▸ Expr.eval_hasTy hw ht (hm.mono hd) hl hv).leaf
  exact ⟨a, by simp [Expr.evalLeaf, hv, Value.leaf?]⟩

theorem steps_eq_some {Γ : List (Nat × Ty)} {locals : List (Nat × Val α)} {steps : List Step}
    (ht : s.TypedSteps w.program Γ steps)
    (hd : ∀ step ∈ steps, ∀ d ∈ step.expr.mentions, d ∈ ds)
    (hl : TypedLocals w.program Γ locals) :
    ∃ locals' discards, finalLocals w m locals steps = some locals' ∧
      discardValues w m locals steps = some discards ∧
        TypedLocals w.program (steps.foldl Step.extend Γ) locals' := by
  induction steps generalizing Γ locals with
  | nil => exact ⟨locals, [], rfl, rfl, hl⟩
  | cons step steps ih =>
      have hhead := hd step (by simp)
      have hrest := fun step' h => hd step' (List.mem_cons_of_mem _ h)
      cases step with
      | bind b value =>
          obtain ⟨⟨hv, hb⟩, ht⟩ := ht
          obtain ⟨v, hval⟩ := Expr.eval_eq_some hw hv (hm.mono hhead) (hx.mono hhead) hl
          have hty := hb ▸ Expr.eval_hasTy hw hv (hm.mono hhead) hl hval
          simpa [finalLocals, discardValues, hval] using ih ht hrest (hl.bind hty)
      | discard condition span =>
          obtain ⟨⟨hc, hb⟩, ht⟩ := ht
          obtain ⟨a, ha⟩ := evalLeaf_eq_some hw hm hx hc hhead hl hb
          obtain ⟨locals', discards, hfinal, hdiscards, hl'⟩ := ih ht hrest hl
          exact ⟨locals', a :: discards, hfinal, by simp [discardValues, ha, hdiscards], hl'⟩

end Shader

end ShaderDialects
