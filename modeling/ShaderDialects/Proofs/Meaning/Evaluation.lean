import Mathlib.Data.List.Induction
import Mathlib.Data.List.Nodup
import Mathlib.Data.List.Perm.Subperm
import ShaderDialects.Builtin.Table
import ShaderDialects.Proofs.Meaning.Execution
import ShaderDialects.Proofs.Source.Linearization

namespace ShaderDialects

variable {α : Type}

abbrev Val (α : Type) := Value Nat α

/-- What the meaning of a shader depends on, the values of its inputs and parameters included. -/
structure World (α : Type) where
  interpretation : Interpretation α
  program : Program
  table : Table
  version : Version
  stage : Stage
  inputs : List α
  parameters : List (Val α)

structure Meaning (α : Type) where
  read : Nat → Option (Val α)
  apply : Nat → List (Val α) → Option (Val α)

namespace Expr

variable (w : World α) (m : Meaning α)

mutual

def eval (locals : List (Nat × Val α)) : Expr → Option (Val α)
  | literal _ v => some (.leaf (w.interpretation.literal v))
  | bound _ id => locals.lookup id
  | term _ t => m.read t
  | input _ i => w.inputs[i]?.map .leaf
  | parameter _ i => w.parameters[i]?
  | apply _ f args => (evalAll locals args).bind (m.apply f)
  | cond _ c a r =>
      ((eval locals c).bind Value.leaf?).bind fun b =>
        if w.interpretation.truth b then eval locals a else eval locals r
  | bind _ b value body => (eval locals value).bind fun v => eval ((b.id, v) :: locals) body
  | construct _ r fields => (evalAll locals fields).map (.record r)
  | field _ base i => (eval locals base).bind fun v => v.field? i
  | swizzle _ base s =>
      ((eval locals base).bind Value.leaf?).map fun a => .leaf (w.interpretation.swizzle a s)

def evalAll (locals : List (Nat × Val α)) : List Expr → Option (List (Val α))
  | [] => some []
  | e :: es => (eval locals e).bind fun v => (evalAll locals es).map (v :: ·)

end

def evalLeaf (locals : List (Nat × Val α)) (e : Expr) : Option α :=
  (e.eval w m locals).bind Value.leaf?

end Expr

/-- What an external does with leaf values, once it is decided how it is lowered. -/
def Decision.eval (I : Interpretation α) (signature : Signature) (args : List α) :
    Decision → Option α
  | native form => some (I.native form args)
  | emulated e =>
      match e.build signature with
      | .function params _ body =>
          (Dialect.invoke I [] (params.map Prod.fst) body (args.map .leaf)).bind Value.leaf?
      | .constant _ value => value.evalLeaf I []

namespace World

variable (w : World α)

def external (symbol : String) (signature : Signature) (args : List α) : Option (Val α) :=
  match w.table.resolve symbol signature.kind w.version w.stage with
  | .ok decision => (decision.eval w.interpretation signature args).map .leaf
  | .error _ => none

def step (m : Meaning α) : Meaning α where
  read i :=
    match w.program.terms[i]?.map Term.kind with
    | some (.value _ body) => body.eval w m []
    | some (.external symbol signature) => w.external symbol signature []
    | _ => none
  apply i args :=
    match w.program.terms[i]?.map Term.kind with
    | some (.function params _ body) =>
        if params.length = args.length then body.eval w m ((params.map Binding.id).zip args)
        else none
    | some (.external symbol signature) =>
        (Value.leaves? args).bind (w.external symbol signature)
    | _ => none

def meaningWithin : Nat → Meaning α
  | 0 => ⟨fun _ => none, fun _ _ => none⟩
  | depth + 1 => w.step (meaningWithin depth)

/-- What terms mean. Terms that do not refer to themselves are nested no deeper than there are
terms. -/
def meaning : Meaning α := w.meaningWithin w.program.terms.length

end World

namespace Shader

variable (w : World α) (m : Meaning α)

def finalLocals : List (Nat × Val α) → List Step → Option (List (Nat × Val α))
  | locals, [] => some locals
  | locals, .bind b value :: steps =>
      (value.eval w m locals).bind fun v => finalLocals ((b.id, v) :: locals) steps
  | locals, .discard _ _ :: steps => finalLocals locals steps

def discardValues : List (Nat × Val α) → List Step → Option (List α)
  | _, [] => some []
  | locals, .bind b value :: steps =>
      (value.eval w m locals).bind fun v => discardValues ((b.id, v) :: locals) steps
  | locals, .discard condition _ :: steps =>
      (condition.evalLeaf w m locals).bind fun a => (discardValues locals steps).map (a :: ·)

def assignedValues (locals : List (Nat × Val α)) (assignments : List Assignment) :
    Option (List α) :=
  assignments.mapM fun a => a.value.evalLeaf w m locals

def evaluate (s : Shader) : Option (Drawn α) :=
  (finalLocals w w.meaning [] s.steps).bind fun locals =>
    (discardValues w w.meaning [] s.steps).bind fun discards =>
      (assignedValues w w.meaning locals s.assignments).map fun writes => ⟨discards, writes⟩

end Shader

def Meaning.Agree (m m' : Meaning α) (ds : List DeclId) : Prop :=
  ∀ t, .term t ∈ ds → m.read t = m'.read t ∧ m.apply t = m'.apply t

namespace Expr

variable {w : World α} {m m' : Meaning α}

theorem evalAll_congr {locals : List (Nat × Val α)} {es : List Expr}
    (h : ∀ e ∈ es, e.eval w m locals = e.eval w m' locals) :
    evalAll w m locals es = evalAll w m' locals es := by
  induction es with
  | nil => rfl
  | cons e es ih =>
      rw [evalAll, evalAll, h e (by simp), ih fun e he => h e (by simp [he])]

theorem eval_congr {e : Expr} (h : m.Agree m' e.mentions) (locals : List (Nat × Val α)) :
    e.eval w m locals = e.eval w m' locals := by
  have child {e child : Expr} (h : m.Agree m' e.mentions) (hc : child ∈ e.children) :
      m.Agree m' child.mentions := fun t ht => h t (mentions_of_child hc ht)
  induction e generalizing locals with
  | literal n v => rfl
  | bound n id => rfl
  | term n t => exact (h t (mentions_of_own (by simp [ownMentions]))).1
  | input n i => rfl
  | parameter n i => rfl
  | apply n f args ih =>
      rw [eval, eval, evalAll_congr fun e he => ih e he (child h he) locals,
        (h f (mentions_of_own (by simp [ownMentions]))).2]
  | cond n c a r ihc iha ihr =>
      simp only [eval, ihc (child h (by simp [children])) locals,
        iha (child h (by simp [children])) locals, ihr (child h (by simp [children])) locals]
  | bind n b value body ihv ihb =>
      simp only [eval, ihv (child h (by simp [children])) locals,
        fun v => ihb (child h (by simp [children])) ((b.id, v) :: locals)]
  | construct n r fields ih =>
      rw [eval, eval, evalAll_congr fun e he => ih e he (child h he) locals]
  | field n base i ih => rw [eval, eval, ih (child h (by simp [children])) locals]
  | swizzle n base s ih => rw [eval, eval, ih (child h (by simp [children])) locals]

end Expr

namespace World

variable {w : World α} {m m' : Meaning α} {order : List DeclId}

section Step

variable {i : Nat} {t : Term} (ht : w.program.terms[i]? = some t)
include ht

theorem step_value {ty : Ty} {body : Expr} (hk : t.kind = .value ty body) :
    (w.step m).read i = body.eval w m [] := by
  simp [step, ht, hk]

theorem step_function {params : List Binding} {result : Ty} {body : Expr}
    (hk : t.kind = .function params result body) {args : List (Val α)}
    (hl : params.length = args.length) :
    (w.step m).apply i args = body.eval w m ((params.map Binding.id).zip args) := by
  simp [step, ht, hk, hl]

theorem step_external_read {symbol : String} {signature : Signature}
    (hk : t.kind = .external symbol signature) :
    (w.step m).read i = w.external symbol signature [] := by
  simp [step, ht, hk]

theorem step_external_apply {symbol : String} {signature : Signature}
    (hk : t.kind = .external symbol signature) (as : List α) :
    (w.step m).apply i (as.map .leaf) = w.external symbol signature as := by
  simp [step, ht, hk, Value.leaves?_map_leaf]

end Step

theorem step_congr {i : Nat} {t : Term} (ht : w.program.terms[i]? = some t)
    (h : m.Agree m' t.kind.mentions) :
    (w.step m).read i = (w.step m').read i ∧ (w.step m).apply i = (w.step m').apply i := by
  cases hk : t.kind with
  | function params result body =>
      have hb : m.Agree m' body.mentions :=
        fun t ht => h t (by simp [hk, TermKind.mentions, ht])
      refine ⟨by simp [step, ht, hk], funext fun args => ?_⟩
      simp [step, ht, hk, Expr.eval_congr hb]
  | value ty body =>
      have hb : m.Agree m' body.mentions :=
        fun t ht => h t (by simp [hk, TermKind.mentions, ht])
      exact ⟨by simp [step, ht, hk, Expr.eval_congr hb], by simp [step, ht, hk]⟩
  | external symbol signature => exact ⟨by simp [step, ht, hk], by simp [step, ht, hk]⟩

def termCount (ds : List DeclId) : Nat := (Closure.placed ds).terms.length

/-- From a depth of as many terms as stand up to it, the meaning of a term does not change. -/
theorem meaningWithin_agree (hl : Linear w.program order) {pre post : List DeclId}
    (ho : order = pre ++ post) {j k : Nat} (hj : termCount pre ≤ j) (hk : termCount pre ≤ k) :
    (w.meaningWithin j).Agree (w.meaningWithin k) pre := by
  -- Induction along the order: what a term mentions stands before it and is settled one level
  -- earlier.
  induction pre using List.reverseRecOn generalizing post j k with
  | nil => simp [Meaning.Agree]
  | append_singleton pre d ih =>
      rw [List.append_assoc, List.singleton_append] at ho
      intro i hi
      rcases List.mem_append.mp hi with hi | hi
      · have hpre : termCount pre ≤ termCount (pre ++ [d]) := by simp [termCount, Closure.terms]
        exact ih ho (Nat.le_trans hpre hj) (Nat.le_trans hpre hk) i hi
      · obtain rfl := List.mem_singleton.mp hi
        obtain ⟨t, ht, hm⟩ := hl.term ho
        have hcount : termCount (pre ++ [.term i]) = termCount pre + 1 := by
          simp [termCount, Closure.terms]
        obtain ⟨j, rfl⟩ : ∃ j', j = j' + 1 := ⟨j - 1, by omega⟩
        obtain ⟨k, rfl⟩ : ∃ k', k = k' + 1 := ⟨k - 1, by omega⟩
        have hagree := ih ho (j := j) (k := k) (by omega) (by omega)
        exact step_congr ht fun t ht => hagree t (hm _ ht)

theorem termCount_le (hl : Linear w.program order) :
    termCount order ≤ w.program.terms.length := by
  have hsub : (Closure.placed order).terms ⊆ List.range w.program.terms.length := by
    intro i hi
    obtain ⟨d, hd, hi⟩ := List.mem_filterMap.mp hi
    cases d with
    | record _ => simp at hi
    | term j =>
        obtain rfl : j = i := by simpa using hi
        obtain ⟨pre, post, ho⟩ := List.append_of_mem hd
        obtain ⟨t, ht, _⟩ := hl.term ho
        exact List.mem_range.mpr (List.getElem?_eq_some_iff.mp ht).1
  have hnodup : (Closure.placed order).terms.Nodup := by
    refine hl.nodup.filterMap fun d d' i hd hd' => ?_
    cases d <;> cases d' <;> simp_all
  simpa [termCount] using (hnodup.subperm hsub).length_le

theorem meaning_agree_step (hl : Linear w.program order) :
    w.meaning.Agree (w.step w.meaning) order :=
  meaningWithin_agree (k := w.program.terms.length + 1) hl (List.append_nil order).symm
    (termCount_le hl) (Nat.le_succ_of_le (termCount_le hl))

end World

end ShaderDialects
