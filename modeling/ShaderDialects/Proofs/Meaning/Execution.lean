import ShaderDialects.Proofs.Meaning.Value
import ShaderDialects.Builtin.Emulation

namespace ShaderDialects.Dialect

variable {α : Type}

abbrev Val (α : Type) := Value (List String) α

inductive Entity (α : Type) where
  /-- A constant, which has no value if its initializer gets stuck. -/
  | constant (value : Option (Val α))
  /-- A variable, which has no value before it is assigned one. -/
  | variable (value : Option (Val α))
  | struct (fields : List String)
  | function (call : List (Val α) → Option (Val α))

abbrev Env (α : Type) := List (String × Entity α)

namespace Env

def read (env : Env α) (name : String) : Option (Val α) :=
  match env.lookup name with
  | some (.constant v) | some (.variable v) => v
  | _ => none

def call (env : Env α) (name : String) (args : List (Val α)) : Option (Val α) :=
  match env.lookup name with
  | some (.struct fields) => if fields.length = args.length then some (.record fields args) else none
  | some (.function f) => f args
  | _ => none

/-- Gives the innermost entity of this name a value, if it is a variable. -/
def assign (name : String) (v : Val α) : Env α → Option (Env α)
  | [] => none
  | (n, x) :: env =>
      if n = name then
        match x with
        | .variable _ => some ((n, .variable (some v)) :: env)
        | _ => none
      else (assign name v env).map ((n, x) :: ·)

def names (env : Env α) : List String := env.map Prod.fst

theorem lookup_cons_of_ne {n name : String} (h : name ≠ n) (x : Entity α) (env : Env α) :
    List.lookup name ((n, x) :: env) = env.lookup name := by
  rw [List.lookup_cons, beq_false_of_ne h]

theorem read_cons_of_ne {n name : String} (h : name ≠ n) (x : Entity α) (env : Env α) :
    Env.read ((n, x) :: env) name = env.read name := by
  rw [read, read, lookup_cons_of_ne h]

theorem lookup_append_of_not_mem {front env : Env α} {name : String} (h : name ∉ front.names) :
    List.lookup name (front ++ env) = env.lookup name := by
  induction front with
  | nil => rfl
  | cons x front ih =>
      obtain ⟨hx, hf⟩ := not_or.mp (mt List.mem_cons.mpr h)
      rw [List.cons_append, lookup_cons_of_ne hx, ih hf]

@[simp]
theorem assign_cons_self (n : String) (x : Option (Val α)) (v : Val α) (env : Env α) :
    Env.assign n v ((n, .variable x) :: env) = some ((n, .variable (some v)) :: env) := by
  simp [assign]

theorem assign_cons_of_ne {n name : String} (h : name ≠ n) (x : Entity α) (v : Val α)
    (env : Env α) :
    Env.assign name v ((n, x) :: env) = (env.assign name v).map ((n, x) :: ·) := by
  simp [assign, Ne.symm h]

theorem assign_append {front env : Env α} {name : String} (h : name ∉ front.names) (v : Val α) :
    Env.assign name v (front ++ env) = (env.assign name v).map (front ++ ·) := by
  induction front with
  | nil => simp
  | cons x front ih =>
      obtain ⟨hx, hf⟩ := not_or.mp (mt List.mem_cons.mpr h)
      rw [List.cons_append, assign_cons_of_ne hx, ih hf, Option.map_map]
      rfl

theorem length_assign {env env' : Env α} {name : String} {v : Val α}
    (h : env.assign name v = some env') : env'.length = env.length := by
  induction env generalizing env' with
  | nil => simp [assign] at h
  | cons x env ih =>
      obtain ⟨n, x⟩ := x
      by_cases hn : name = n
      · subst hn
        cases x with
        | «variable» u =>
            rw [assign_cons_self] at h
            exact Option.some.inj h ▸ rfl
        | _ => simp [assign] at h
      · rw [assign_cons_of_ne hn] at h
        obtain ⟨env', henv, rfl⟩ := Option.map_eq_some_iff.mp h
        simp [ih henv]

theorem assign_of_lookup {env : Env α} {name : String} {x : Option (Val α)}
    (h : env.lookup name = some (.variable x)) (v : Val α) :
    ∃ env', env.assign name v = some env' := by
  induction env with
  | nil => simp at h
  | cons y env ih =>
      obtain ⟨n, y⟩ := y
      by_cases hn : name = n
      · subst hn
        obtain rfl : y = .variable x := by simpa using h
        exact ⟨_, assign_cons_self _ _ _ _⟩
      · rw [lookup_cons_of_ne hn] at h
        obtain ⟨env', he⟩ := ih h
        exact ⟨(n, y) :: env', by rw [assign_cons_of_ne hn, he]; rfl⟩

@[simp]
theorem read_cons_self (n : String) (v : Option (Val α)) (env : Env α) :
    Env.read ((n, .variable v) :: env) n = v := by
  simp [read]

end Env

def select (name : String) : Val α → Option (Val α)
  | .leaf _ => none
  | .record names vs => (names.zip vs).lookup name

variable (I : Interpretation α)

def applyNative (form : Form) (args : List (Val α)) : Option (Val α) :=
  (Value.leaves? args).map fun as => .leaf (I.native form as)

namespace Expr

@[elab_as_elim, induction_eliminator]
theorem induct {motive : Expr → Prop} (literal : ∀ v, motive (.literal v))
    (var : ∀ n, motive (.var n)) (builtin : ∀ n, motive (.builtin n))
    (call : ∀ f args, (∀ e ∈ args, motive e) → motive (.call f args))
    (binary : ∀ op l r, motive l → motive r → motive (.binary op l r))
    (unary : ∀ op e, motive e → motive (.unary op e))
    (field : ∀ e n, motive e → motive (.field e n))
    (swizzle : ∀ e s, motive e → motive (.swizzle e s))
    (index : ∀ e i, motive e → motive (.index e i)) (e : Expr) : motive e :=
  @Expr.rec motive (fun es => ∀ e ∈ es, motive e) literal var builtin call binary unary field
    swizzle index (by simp) (fun e es he hes => by simpa using ⟨he, hes⟩) e

mutual

def eval (env : Env α) : Expr → Option (Val α)
  | literal v => some (.leaf (I.literal v))
  | var n => env.read n
  | builtin n => some (.leaf (I.native (.var n) []))
  | call (.native n) args => (evalAll env args).bind (applyNative I (.call n))
  | call (.user n) args => (evalAll env args).bind (env.call n)
  | binary op l r =>
      (eval env l).bind fun v => (eval env r).bind fun w => applyNative I (.binary op) [v, w]
  | unary op e => (eval env e).bind fun v => applyNative I (.unary op) [v]
  | field e n => (eval env e).bind (select n)
  | swizzle e s => ((eval env e).bind Value.leaf?).map fun a => .leaf (I.swizzle a s)
  | index e i => ((eval env e).bind Value.leaf?).map fun a => .leaf (I.index a i)

def evalAll (env : Env α) : List Expr → Option (List (Val α))
  | [] => some []
  | e :: es => (eval env e).bind fun v => (evalAll env es).map (v :: ·)

end

def evalLeaf (env : Env α) (e : Expr) : Option α := (e.eval I env).bind Value.leaf?

end Expr

inductive Outcome (α : Type) where
  | next (env : Env α)
  | returned (value : Val α)

/-- Gives up what was declared since the environment was `outer`. -/
def Outcome.leave (outer : Env α) : Outcome α → Outcome α
  | next env => next (env.drop (env.length - outer.length))
  | returned v => returned v

namespace Stmt

/-- Induction on statements in lists, into the branches and blocks. -/
@[elab_as_elim]
theorem inductOf {motive : List Stmt → Prop} (nil : motive [])
    (declare : ∀ n ty init ss, motive ss → motive (.declare n ty init :: ss))
    (assign : ∀ n value ss, motive ss → motive (.assign n value :: ss))
    (cond : ∀ c accept reject ss, motive accept → motive reject → motive ss →
      motive (.cond c accept reject :: ss))
    (block : ∀ body ss, motive body → motive ss → motive (.block body :: ss))
    (ret : ∀ value ss, motive ss → motive (.return value :: ss)) : ∀ ss, motive ss
  | [] => nil
  | .declare n ty init :: ss =>
      declare n ty init ss (inductOf nil declare assign cond block ret ss)
  | .assign n value :: ss => assign n value ss (inductOf nil declare assign cond block ret ss)
  | .cond c accept reject :: ss =>
      cond c accept reject ss (inductOf nil declare assign cond block ret accept)
        (inductOf nil declare assign cond block ret reject)
        (inductOf nil declare assign cond block ret ss)
  | .block body :: ss =>
      block body ss (inductOf nil declare assign cond block ret body)
        (inductOf nil declare assign cond block ret ss)
  | .return value :: ss => ret value ss (inductOf nil declare assign cond block ret ss)

mutual

def exec (env : Env α) : Stmt → Option (Outcome α)
  | declare n _ none => some (.next ((n, .variable none) :: env))
  | declare n _ (some e) => (e.eval I env).map fun v => .next ((n, .variable (some v)) :: env)
  | assign n e => (e.eval I env).bind fun v => (env.assign n v).map .next
  | cond c accept reject =>
      (c.evalLeaf I env).bind fun a =>
        if I.truth a then (execAll env accept).map (·.leave env)
        else (execAll env reject).map (·.leave env)
  | block body => (execAll env body).map (·.leave env)
  | .return e => (e.eval I env).map .returned

def execAll (env : Env α) : List Stmt → Option (Outcome α)
  | [] => some (.next env)
  | s :: ss =>
      match exec env s with
      | some (.next env) => execAll env ss
      | r => r

end

theorem execAll_append_of_next {env env' : Env α} {ss : List Stmt}
    (h : execAll I env ss = some (.next env')) (rest : List Stmt) :
    execAll I env (ss ++ rest) = execAll I env' rest := by
  induction ss generalizing env with
  | nil =>
      cases h
      rfl
  | cons s ss ih =>
      rw [execAll] at h
      rw [List.cons_append, execAll]
      split at h
      next => exact ih h
      next hs => exact absurd h (hs _)

theorem execAll_append_of_none {env : Env α} {ss : List Stmt} (h : execAll I env ss = none)
    (rest : List Stmt) : execAll I env (ss ++ rest) = none := by
  induction ss generalizing env with
  | nil => simp [execAll] at h
  | cons s ss ih =>
      rw [execAll] at h
      rw [List.cons_append, execAll]
      split at h
      next => exact ih h
      next hs => simp only [h]

theorem execAll_singleton (env : Env α) (s : Stmt) : execAll I env [s] = exec I env s := by
  rw [execAll]
  split
  next h => rw [h]; rfl
  next => rfl

end Stmt

def Env.bindAll (env : Env α) (names : List String) (args : List (Val α)) : Env α :=
  (names.zip args).map (fun (n, v) => (n, .variable (some v))) ++ env

theorem Env.bindAll_eq (env : Env α) (names : List String) (args : List (Val α)) :
    env.bindAll names args = names.zip (args.map fun v => Entity.variable (some v)) ++ env := by
  rw [List.zip_map_right]
  rfl

def invoke (env : Env α) (params : List String) (body : List Stmt) (args : List (Val α)) :
    Option (Val α) :=
  if params.length = args.length then
    match Stmt.execAll I (env.bindAll params args) body with
    | some (.returned v) => some v
    | _ => none
  else none

def DeclKind.entity (env : Env α) : DeclKind → Entity α
  | struct fields => .struct (fields.map Variable.name)
  | function params _ body => .function (invoke I env (params.map Variable.name) body)
  | constant _ value => .constant (value.eval I env)

def Decl.enter (env : Env α) (d : Decl) : Env α := (d.name, d.kind.entity I env) :: env

/-- The discard conditions and output writes are evaluated after all statements. -/
def Main.run (main : Main) (env : Env α) : Option (Drawn α) :=
  match Stmt.execAll I env main.statements with
  | some (.next env) =>
      (main.discards.mapM (Expr.evalLeaf I env)).bind fun discards =>
        (main.outputs.mapM fun (o : OutputWrite) => o.value.evalLeaf I env).map fun writes =>
          ⟨discards, writes⟩
  | _ => none

namespace Shader

variable (s : Shader)

def baseEnv (inputs uniforms : List α) : Env α :=
  (s.inputs.zip inputs).map (fun (x, a) => (x.name, .constant (some (.leaf a))))
    ++ s.outputs.map (fun x => (x.name, .variable none))
    ++ (s.uniforms.zip uniforms).map (fun (u, a) => (u.name, .constant (some (.leaf a))))

def run (inputs uniforms : List α) : Option (Drawn α) :=
  s.main.run I (s.decls.foldl (Decl.enter I) (s.baseEnv inputs uniforms))

end Shader

end ShaderDialects.Dialect
