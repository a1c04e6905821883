import ShaderDialects.Proofs.Builtin.Availability
import ShaderDialects.Proofs.Meaning.Execution

namespace ShaderDialects.Dialect

namespace Expr

mutual

def Closed (names : List String) : Expr → Prop
  | literal _ => True
  | var n => n ∈ names
  | builtin _ => True
  | call (.native _) args => ClosedAll names args
  | call (.user _) _ => False
  | binary _ l r => Closed names l ∧ Closed names r
  | unary _ e => Closed names e
  | field _ _ => False
  | swizzle e _ => Closed names e
  | index e _ => Closed names e

def ClosedAll (names : List String) : List Expr → Prop
  | [] => True
  | e :: es => Closed names e ∧ ClosedAll names es

end

theorem closedAll_iff {names : List String} {es : List Expr} :
    ClosedAll names es ↔ ∀ e ∈ es, e.Closed names := by
  induction es with
  | nil => simp [ClosedAll]
  | cons e es ih => simp [ClosedAll, ih]

end Expr

/-- The statements declare locals of builtin types, then return a result or choose between two
such bodies, and are closed. -/
inductive Stmt.Closed : List String → List Stmt → Prop where
  | ret {names e} (he : e.Closed names) : Closed names [.return e]
  | cond {names c accept reject} (hc : c.Closed names) (ha : Closed names accept)
      (hr : Closed names reject) : Closed names [.cond c accept reject]
  | declare {names n leaf e ss} (he : e.Closed names) (h : Closed (n :: names) ss) :
      Closed names (.declare n (.leaf leaf) (some e) :: ss)

variable {α : Type}

/-- Each of the names reads as a leaf. -/
def Env.Leaves (names : List String) (env : Env α) : Prop :=
  ∀ n ∈ names, ∃ a, env.read n = some (.leaf a)

theorem Env.Leaves.bind {names : List String} {env : Env α} (h : env.Leaves names) (n : String)
    (a : α) : Env.Leaves (n :: names) ((n, .variable (some (.leaf a))) :: env) := by
  intro m hm
  by_cases hn : m = n
  · exact ⟨a, by simp [hn]⟩
  · obtain ⟨b, hb⟩ := h m ((List.mem_cons.mp hm).resolve_left hn)
    exact ⟨b, by rw [Env.read_cons_of_ne hn, hb]⟩

variable (I : Interpretation α) {names : List String} {env : Env α}

theorem Expr.evalAll_closed {es : List Expr} (h : ∀ e ∈ es, ∃ a, e.eval I env = some (.leaf a)) :
    ∃ as : List α, evalAll I env es = some (as.map .leaf) := by
  induction es with
  | nil => exact ⟨[], rfl⟩
  | cons e es ih =>
      obtain ⟨a, ha⟩ := h e (by simp)
      obtain ⟨as, has⟩ := ih fun e he => h e (by simp [he])
      exact ⟨a :: as, by simp [evalAll, ha, has]⟩

theorem Expr.Closed.eval {e : Expr} (h : e.Closed names) (hl : env.Leaves names) :
    ∃ a, e.eval I env = some (.leaf a) := by
  have native (form : Form) (as : List α) :
      applyNative I form (as.map .leaf) = some (.leaf (I.native form as)) := by
    simp [applyNative, Value.leaves?_map_leaf]
  induction e with
  | literal v => exact ⟨_, rfl⟩
  | var n => exact hl n h
  | builtin n => exact ⟨_, rfl⟩
  | call f args ih =>
      cases f with
      | user n => exact h.elim
      | native n =>
          have hargs := closedAll_iff.mp h
          obtain ⟨as, has⟩ := evalAll_closed I fun e he => ih e he (hargs e he)
          exact ⟨I.native (.call n) as, by simp [Expr.eval, has, native]⟩
  | binary op l r ihl ihr =>
      obtain ⟨a, ha⟩ := ihl h.1
      obtain ⟨b, hb⟩ := ihr h.2
      exact ⟨_, by simpa [Expr.eval, ha, hb] using native (.binary op) [a, b]⟩
  | unary op e ih =>
      obtain ⟨a, ha⟩ := ih h
      exact ⟨_, by simpa [Expr.eval, ha] using native (.unary op) [a]⟩
  | field e n ih => exact h.elim
  | swizzle e s ih =>
      obtain ⟨a, ha⟩ := ih h
      exact ⟨I.swizzle a s, by simp [Expr.eval, ha, Value.leaf?]⟩
  | index e i ih =>
      obtain ⟨a, ha⟩ := ih h
      exact ⟨I.index a i, by simp [Expr.eval, ha, Value.leaf?]⟩

theorem Stmt.Closed.exec {ss : List Stmt} (h : Stmt.Closed names ss) (hl : env.Leaves names) :
    ∃ a, execAll I env ss = some (.returned (.leaf a)) := by
  induction h generalizing env with
  | ret he =>
      obtain ⟨a, ha⟩ := he.eval I hl
      exact ⟨a, by simp [execAll, Stmt.exec, ha]⟩
  | @cond _ c accept reject hc _ _ iha ihr =>
      obtain ⟨a, ha⟩ := hc.eval I hl
      have hleaf : c.evalLeaf I env = some a := by simp [Expr.evalLeaf, ha, Value.leaf?]
      simp only [execAll_singleton, Stmt.exec, hleaf, Option.bind_some]
      split
      · obtain ⟨b, hb⟩ := iha hl
        exact ⟨b, by simp [hb, Outcome.leave]⟩
      · obtain ⟨b, hb⟩ := ihr hl
        exact ⟨b, by simp [hb, Outcome.leave]⟩
  | @declare _ n _ _ _ he _ ih =>
      obtain ⟨a, ha⟩ := he.eval I hl
      obtain ⟨b, hb⟩ := ih (hl.bind n a)
      exact ⟨b, by simp [execAll, Stmt.exec, ha, hb]⟩

theorem Env.leaves_bindAll {params : List String} {as : List α}
    (hl : params.length = as.length) (env : Env α) :
    Env.Leaves params (env.bindAll params (as.map .leaf)) := by
  induction params generalizing as with
  | nil => simp [Env.Leaves]
  | cons n params ih =>
      cases as with
      | nil => simp at hl
      | cons a as => exact (ih (by simpa using hl)).bind n a

/-- A closed function gives a leaf for as many leaves as it has parameters. -/
theorem invoke_closed {params : List String} {body : List Stmt} (h : Stmt.Closed params body)
    {as : List α} (hl : params.length = as.length) (env : Env α) :
    ∃ a, invoke I env params body (as.map .leaf) = some (.leaf a) := by
  obtain ⟨a, ha⟩ := h.exec I (Env.leaves_bindAll hl env)
  exact ⟨a, by simp [invoke, hl, ha]⟩

end Dialect

namespace Emulation

def Body.Closed : Body → Prop
  | function params _ body => Dialect.Stmt.Closed (params.map Prod.fst) body
  | constant _ value => value.Closed []

theorem closed_alternate {names : List String} {sum : Dialect.Expr} {ts : List Dialect.Expr}
    (hs : sum.Closed names) (ht : ∀ t ∈ ts, t.Closed names) (plus : Bool) :
    (alternate sum plus ts).Closed names := by
  induction ts generalizing sum plus with
  | nil => exact hs
  | cons t ts ih =>
      have hsum (op : Dialect.BinaryOp) : (Dialect.Expr.binary op sum t).Closed names :=
        ⟨hs, ht t (by simp)⟩
      exact ih (hsum _) (fun t h => ht t (by simp [h])) _

theorem closed_minor {names : List String} (hm : "m" ∈ names) (columns rows : List Nat) :
    (minor columns rows).Closed names := by
  induction columns generalizing rows with
  | nil => trivial
  | cons column columns ih =>
      cases rows with
      | nil => trivial
      | cons row rows =>
          cases columns with
          | nil => exact hm
          | cons next columns =>
              have hterm (r : Nat) (rest : List Nat) : (Dialect.Expr.binary .multiply
                  (element column r) (minor (next :: columns) rest)).Closed names := ⟨hm, ih _⟩
              rw [minor, List.map_cons]
              · refine closed_alternate (hterm _ _) (fun t ht => ?_) _
                obtain ⟨r, _, rfl⟩ := List.mem_map.mp ht
                exact hterm _ _
              · exact nofun
              · exact nofun

theorem closed_inverseElements {names : List String} (hm : "m" ∈ names) (hd : "d" ∈ names)
    (n : Nat) : Dialect.Expr.ClosedAll names (inverseElements n) := by
  refine Dialect.Expr.closedAll_iff.mpr fun e he => ?_
  obtain ⟨column, _, he⟩ := List.mem_flatMap.mp he
  obtain ⟨row, _, rfl⟩ := List.mem_map.mp he
  refine ⟨?_, hd⟩
  split <;> exact closed_minor hm _ _

theorem closed_transposeElements {names : List String} (hm : "m" ∈ names) (columns rows : Nat) :
    Dialect.Expr.ClosedAll names (transposeElements columns rows) := by
  refine Dialect.Expr.closedAll_iff.mpr fun e he => ?_
  obtain ⟨j, _, he⟩ := List.mem_flatMap.mp he
  obtain ⟨i, _, rfl⟩ := List.mem_map.mp he
  exact hm

theorem closed_isNaNValue {names : List String} (hx : "x" ∈ names) (leaf : Leaf) :
    (isNaNValue leaf).Closed names := by
  cases leaf <;>
    simp [isNaNValue, Dialect.Expr.native, Dialect.Expr.Closed, Dialect.Expr.ClosedAll, hx]

/-- A listed emulation is closed, whatever signature it is built for. -/
theorem closed_build {e : Emulation} (he : e.isCustom = false) (signature : Signature) :
    (e.build signature).Closed := by
  have hm : "m" ∈ ["m"] := List.mem_singleton_self _
  cases e with
  | isNaN => exact .ret (closed_isNaNValue (List.mem_singleton_self _) _)
  | transpose => exact .ret (closed_transposeElements hm _ _)
  | determinant => exact .ret (closed_minor hm _ _)
  | inverse =>
      exact .declare (closed_minor hm _ _) (.ret (closed_inverseElements (by simp) (by simp) _))
  | tanh =>
      refine .declare ?_ (.ret ?_)
      · simp [doubledExponential, two, ten, minusTen, Dialect.Expr.native, Dialect.Expr.Closed,
          Dialect.Expr.ClosedAll]
      · simp [tanhValue, one, Dialect.Expr.Closed]
  | pi => trivial
  | custom => cases he
  | _ =>
      refine .ret ?_
      simp [Dialect.Expr.Closed, Dialect.Expr.ClosedAll, Dialect.Expr.native, remainderValue,
        roundValue, truncateValue, exponentialPair, zeroPointFive]

end Emulation

end ShaderDialects
