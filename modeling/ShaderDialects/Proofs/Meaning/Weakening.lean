import ShaderDialects.Proofs.Except
import ShaderDialects.Proofs.Meaning.Execution

namespace ShaderDialects.Dialect

variable {α : Type}

/-- Whatever the one entity gives, the other gives too. -/
inductive Entity.Below : Entity α → Entity α → Prop where
  | refl (x : Entity α) : Below x x
  | constant {v v' : Option (Val α)} (h : ∀ x ∈ v, x ∈ v') : Below (.constant v) (.constant v')
  | function {f f' : List (Val α) → Option (Val α)} (h : ∀ args, ∀ v ∈ f args, v ∈ f' args) :
      Below (.function f) (.function f')

/-- The one environment begins the other, up to entities that give less. -/
inductive Env.Below : Env α → Env α → Prop where
  | nil (env : Env α) : Below [] env
  | cons {x y : Entity α} (n : String) (hx : x.Below y) {env env' : Env α} (h : Below env env') :
      Below ((n, x) :: env) ((n, y) :: env')

namespace Env.Below

variable {env env' : Env α} (h : env.Below env')

theorem refl (env : Env α) : env.Below env := by
  induction env with
  | nil => exact .nil _
  | cons x env ih => exact .cons x.1 (.refl x.2) ih

theorem append (front : Env α) (h : env.Below env') : (front ++ env).Below (front ++ env') := by
  induction front with
  | nil => exact h
  | cons x front ih => exact .cons x.1 (.refl x.2) ih

include h

theorem drop (k : Nat) : Below (env.drop k) (env'.drop k) := by
  induction h generalizing k with
  | nil env => simpa using Below.nil _
  | cons n hx h ih =>
      cases k with
      | zero => exact .cons n hx h
      | succ k => exact ih k

theorem lookup {name : String} {x : Entity α} (hx : env.lookup name = some x) :
    ∃ y, env'.lookup name = some y ∧ x.Below y := by
  induction h with
  | nil env => simp at hx
  | @cons y z n hyz env env' _ ih =>
      by_cases hn : name = n
      · subst hn
        obtain rfl : y = x := by simpa using hx
        exact ⟨z, by simp, hyz⟩
      · rw [lookup_cons_of_ne hn] at hx ⊢
        exact ih hx

theorem read {name : String} {v : Val α} (hv : env.read name = some v) :
    env'.read name = some v := by
  rw [Env.read] at hv
  split at hv
  next u hx =>
    obtain ⟨y, hy, hxy⟩ := h.lookup hx
    rw [Env.read, hy]
    cases hxy with
    | refl => exact hv
    | constant hu => exact hu v hv
  next u hx =>
    obtain ⟨y, hy, hxy⟩ := h.lookup hx
    rw [Env.read, hy]
    cases hxy
    exact hv
  next => simp at hv

theorem call {name : String} {args : List (Val α)} {v : Val α}
    (hv : env.call name args = some v) : env'.call name args = some v := by
  rw [Env.call] at hv
  split at hv
  next fields hx =>
    obtain ⟨y, hy, hxy⟩ := h.lookup hx
    cases hxy
    rw [Env.call, hy]
    exact hv
  next f hx =>
    obtain ⟨y, hy, hxy⟩ := h.lookup hx
    rw [Env.call, hy]
    cases hxy with
    | refl => exact hv
    | function hf => exact hf args v hv
  next => simp at hv

theorem assign {name : String} {v : Val α} {low : Env α} (hl : env.assign name v = some low) :
    ∃ high, env'.assign name v = some high ∧ low.Below high := by
  induction h generalizing low with
  | nil env => simp [Env.assign] at hl
  | @cons x y n hxy env env' h ih =>
      by_cases hn : name = n
      · subst hn
        cases x with
        | «variable» u =>
            cases hxy
            rw [assign_cons_self] at hl
            exact ⟨_, assign_cons_self _ _ _ _, Option.some.inj hl ▸ .cons name (.refl _) h⟩
        | _ => simp [Env.assign] at hl
      · rw [assign_cons_of_ne hn] at hl ⊢
        obtain ⟨low, hlow, rfl⟩ := Option.map_eq_some_iff.mp hl
        obtain ⟨high, hhigh, hb⟩ := ih hlow
        exact ⟨_, by rw [hhigh]; rfl, .cons n hxy hb⟩

end Env.Below

variable (I : Interpretation α)

theorem Expr.evalAll_below {env env' : Env α} {es : List Expr}
    (h : ∀ e ∈ es, ∀ v, e.eval I env = some v → e.eval I env' = some v) {vs : List (Val α)}
    (hvs : evalAll I env es = some vs) : evalAll I env' es = some vs := by
  induction es generalizing vs with
  | nil => exact hvs
  | cons e es ih =>
      rw [evalAll, Option.bind_eq_some_iff] at hvs
      obtain ⟨v, hv, hvs⟩ := hvs
      obtain ⟨us, hus, rfl⟩ := Option.map_eq_some_iff.mp hvs
      have hrest := ih (fun e he => h e (by simp [he])) hus
      simp [evalAll, h e (by simp) v hv, hrest]

/-- An expression keeps its value where more is declared around it. -/
theorem Expr.eval_below {env env' : Env α} (h : env.Below env') {e : Expr} {v : Val α}
    (hv : e.eval I env = some v) : e.eval I env' = some v := by
  induction e generalizing v with
  | literal | builtin => exact hv
  | var n => exact h.read hv
  | call f args ih =>
      cases f with
      | native n =>
          rw [eval, Option.bind_eq_some_iff] at hv
          obtain ⟨vs, hvs, hv⟩ := hv
          rw [eval, evalAll_below I (fun e he v => ih e he) hvs]
          exact hv
      | user n =>
          rw [eval, Option.bind_eq_some_iff] at hv
          obtain ⟨vs, hvs, hv⟩ := hv
          rw [eval, evalAll_below I (fun e he v => ih e he) hvs]
          exact h.call hv
  | binary op l r ihl ihr =>
      rw [eval, Option.bind_eq_some_iff] at hv
      obtain ⟨a, ha, hv⟩ := hv
      rw [Option.bind_eq_some_iff] at hv
      obtain ⟨b, hb, hv⟩ := hv
      simpa [eval, ihl ha, ihr hb] using hv
  | unary op e ih | field e n ih =>
      rw [eval, Option.bind_eq_some_iff] at hv
      obtain ⟨a, ha, hv⟩ := hv
      simpa [eval, ih ha] using hv
  | swizzle e s ih | index e i ih =>
      rw [eval, Option.map_eq_some_iff] at hv
      obtain ⟨a, ha, hv⟩ := hv
      obtain ⟨u, hu, ha⟩ := Option.bind_eq_some_iff.mp ha
      simp [eval, ih hu, ha, hv]

theorem Expr.evalLeaf_below {env env' : Env α} (h : env.Below env') {e : Expr} {a : α}
    (ha : e.evalLeaf I env = some a) : e.evalLeaf I env' = some a := by
  rw [evalLeaf, Option.bind_eq_some_iff] at ha
  obtain ⟨v, hv, ha⟩ := ha
  rw [evalLeaf, eval_below I h hv]
  exact ha

/-- Statements that start in the two environments end the same way, with as many locals declared
in the one as in the other. -/
inductive Outcome.Below (env env' : Env α) : Outcome α → Outcome α → Prop where
  | next {low high : Env α} (h : low.Below high) (k : Nat) (hl : low.length = env.length + k)
      (hh : high.length = env'.length + k) : Below env env' (.next low) (.next high)
  | returned (v : Val α) : Below env env' (.returned v) (.returned v)

namespace Outcome.Below

variable {env env' : Env α} {o o' : Outcome α}

theorem leave (h : Outcome.Below env env' o o') :
    Outcome.Below env env' (o.leave env) (o'.leave env') := by
  cases h with
  | returned v => exact .returned v
  | @next low high h k hl hh =>
      have hk : low.length - env.length = k ∧ high.length - env'.length = k := by omega
      rw [Outcome.leave, Outcome.leave, hk.1, hk.2]
      exact .next (h.drop k) 0 (by simp [hl]) (by simp [hh])

theorem shift {low high : Env α} {k : Nat} (hl : low.length = env.length + k)
    (hh : high.length = env'.length + k) (h : Outcome.Below low high o o') :
    Outcome.Below env env' o o' := by
  cases h with
  | returned v => exact .returned v
  | next h j hl' hh' => exact .next h (k + j) (by omega) (by omega)

end Outcome.Below

/-- Where more is declared, the run ends as it did. -/
def Kept (run : Env α → Option (Outcome α)) : Prop :=
  ∀ env env', env.Below env' → ∀ o, run env = some o →
    ∃ o', run env' = some o' ∧ Outcome.Below env env' o o'

namespace Kept

variable {I}

theorem leave {run : Env α → Option (Outcome α)} (h : Kept run) :
    Kept fun env => (run env).map (·.leave env) := by
  intro env env' hb o ho
  obtain ⟨u, hu, rfl⟩ := Option.map_eq_some_iff.mp ho
  obtain ⟨u', hu', hb⟩ := h env env' hb u hu
  exact ⟨_, by simp [hu'], hb.leave⟩

theorem cons {s : Stmt} {ss : List Stmt} (hs : Kept (Stmt.exec I · s))
    (hss : Kept (Stmt.execAll I · ss)) : Kept (Stmt.execAll I · (s :: ss)) := by
  intro env env' hb o ho
  simp only [Stmt.execAll] at ho ⊢
  split at ho
  next low hlow =>
    obtain ⟨_, hhigh, ⟨hb, k, hl, hh⟩⟩ := hs env env' hb _ hlow
    obtain ⟨o', ho', hb'⟩ := hss low _ hb o ho
    exact ⟨o', by simpa [hhigh] using ho', hb'.shift hl hh⟩
  next hnext =>
    obtain ⟨o', ho', hb⟩ := hs env env' hb o ho
    cases hb with
    | next => exact absurd ho (hnext _)
    | returned v => exact ⟨_, by simp [ho'], .returned v⟩

end Kept

/-- Statements do the same where more is declared around them. -/
theorem Stmt.kept_execAll (ss : List Stmt) : Kept (execAll I · ss) := by
  induction ss using inductOf with
  | nil =>
      intro env env' hb o ho
      cases ho
      exact ⟨_, rfl, .next hb 0 rfl rfl⟩
  | declare n ty init ss ih =>
      refine .cons (fun env env' hb o ho => ?_) ih
      cases init with
      | none =>
          cases ho
          exact ⟨_, rfl, .next (.cons n (.refl _) hb) 1 rfl rfl⟩
      | some e =>
          obtain ⟨v, hv, rfl⟩ := Option.map_eq_some_iff.mp ho
          refine ⟨_, ?_, .next (.cons n (.refl _) hb) 1 rfl rfl⟩
          simp [exec, e.eval_below I hb hv]
  | assign n e ss ih =>
      refine .cons (fun env env' hb o ho => ?_) ih
      obtain ⟨v, hv, ho⟩ := Option.bind_eq_some_iff.mp ho
      obtain ⟨low, hlow, rfl⟩ := Option.map_eq_some_iff.mp ho
      obtain ⟨high, hhigh, hb'⟩ := hb.assign hlow
      refine ⟨.next high, ?_, .next hb' 0 (Env.length_assign hlow) (Env.length_assign hhigh)⟩
      simp [exec, e.eval_below I hb hv, hhigh]
  | cond c accept reject ss iha ihr ih =>
      refine .cons (fun env env' hb o ho => ?_) ih
      obtain ⟨a, ha, ho⟩ := Option.bind_eq_some_iff.mp ho
      simp only [exec, c.evalLeaf_below I hb ha, Option.bind_some]
      split at ho
      next ht =>
        rw [if_pos ht]
        exact iha.leave env env' hb o ho
      next hf =>
        rw [if_neg hf]
        exact ihr.leave env env' hb o ho
  | block body ss ihb ih => exact .cons (fun env env' hb o ho => ihb.leave env env' hb o ho) ih
  | ret e ss ih =>
      refine .cons (fun env env' hb o ho => ?_) ih
      obtain ⟨v, hv, rfl⟩ := Option.map_eq_some_iff.mp ho
      exact ⟨_, by simp [exec, e.eval_below I hb hv], .returned v⟩

section Run

variable {env env' : Env α} (h : env.Below env')
include h

theorem invoke_below {params : List String} {body : List Stmt} {args : List (Val α)} {v : Val α}
    (hv : invoke I env params body args = some v) : invoke I env' params body args = some v := by
  by_cases hl : params.length = args.length
  · rw [invoke, if_pos hl] at hv ⊢
    split at hv
    next u hu =>
      obtain ⟨_, ho, ⟨⟩⟩ := Stmt.kept_execAll I body _ (env'.bindAll params args) (h.append _) _ hu
      simpa [ho] using hv
    next => simp at hv
  · simp [invoke, hl] at hv

theorem Main.run_below {main : Main} {drawn : Drawn α} (hd : main.run I env = some drawn) :
    main.run I env' = some drawn := by
  rw [Main.run] at hd
  split at hd
  next low hlow =>
    obtain ⟨_, hhigh, ⟨hb, _⟩⟩ := Stmt.kept_execAll I main.statements env env' h _ hlow
    obtain ⟨discards, hdiscards, hd⟩ := Option.bind_eq_some_iff.mp hd
    obtain ⟨writes, hwrites, rfl⟩ := Option.map_eq_some_iff.mp hd
    have hdiscards' := (Option.mapM_eq_some.mp hdiscards).imp fun e a => e.evalLeaf_below I hb
    have hwrites' := (Option.mapM_eq_some.mp hwrites).imp
      fun o a => o.value.evalLeaf_below I hb
    simp [Main.run, hhigh, Option.mapM_eq_some.mpr hdiscards', Option.mapM_eq_some.mpr hwrites']
  next => simp at hd

end Run

end ShaderDialects.Dialect
