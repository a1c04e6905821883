import ShaderDialects.Source.Shader

namespace ShaderDialects

def Ty.mentions : Ty → List DeclId
  | leaf _ => []
  | record i => [.record i]

namespace Expr

def ownMentions (e : Expr) : List DeclId :=
  e.ty.mentions ++ match e with
    | term _ t => [.term t]
    | apply _ f _ => [.term f]
    | construct _ r _ => [.record r]
    | bind _ b _ _ => b.ty.mentions
    | _ => []

def mentions (e : Expr) : List DeclId := e.nodes.flatMap ownMentions

end Expr

def Record.mentions (r : Record) : List DeclId := r.fields.flatMap fun f => f.ty.mentions

/-- An external refers to nothing: its signature is made of leaf types. -/
def TermKind.mentions : TermKind → List DeclId
  | function params result body =>
      params.flatMap (fun b => b.ty.mentions) ++ result.mentions ++ body.mentions
  | value ty body => ty.mentions ++ body.mentions
  | external _ _ => []

def Step.binderMentions : Step → List DeclId
  | bind b _ => b.ty.mentions
  | discard _ _ => []

def Shader.references (s : Shader) : List DeclId :=
  (s.inputs.flatMap (fun i => i.ty.mentions)
    ++ s.outputs.flatMap (fun o => o.ty.mentions)
    ++ s.parameters.flatMap (fun q => q.ty.mentions)
    ++ s.steps.flatMap Step.binderMentions
    ++ s.exprs.flatMap Expr.mentions).eraseDups

def Program.dependencies (p : Program) : DeclId → Except Fault (List DeclId)
  | .record i => (p.record i).map fun r => r.mentions.eraseDups
  | .term i => (p.term i).map fun t => t.kind.mentions.eraseDups

abbrev Positions := List (DeclId × Nat)

structure Closure where
  order : List DeclId
  positions : Positions

namespace Closure

inductive Error where
  | cycle (name : String)
  | duplicate (name : String)
  | outOfOrder (dependent dependency : String)
  | missing (dependent dependency : String)
  | fault (fault : Fault)

def Error.message : Error → String
  | cycle n => "declaration `" ++ n ++ "` depends on itself"
  | duplicate n => "declaration `" ++ n ++ "` appears more than once in the closure"
  | outOfOrder a b => "`" ++ a ++ "` is ordered before its dependency `" ++ b ++ "`"
  | missing a b => "`" ++ a ++ "` depends on `" ++ b ++ "`, which is not in the closure"
  | fault f => f.message

variable (p : Program)

/-- Notes the places of declarations, of which the first has place `i`, unless one is met that has a
place already. -/
def placeFrom : Nat → Positions → List DeclId → Except DeclId Positions
  | _, positions, [] => .ok positions
  | i, positions, d :: ds =>
      if (positions.lookup d).isSome then .error d else placeFrom (i + 1) ((d, i) :: positions) ds

def reportOn {α : Type} (make : String → Error) (d : DeclId) : Except Error α :=
  match p.nameOf d with
  | .ok n => .error (make n)
  | .error f => .error (.fault f)

def reportOnPair (make : String → String → Error) (d dependency : DeclId) : Except Error Unit :=
  match p.nameOf d, p.nameOf dependency with
  | .ok n, .ok m => .error (make n m)
  | .error f, _ => .error (.fault f)
  | _, .error f => .error (.fault f)

def checkDependency (positions : Positions) (i : Nat) (d dependency : DeclId) : Except Error Unit :=
  match positions.lookup dependency with
  | none => reportOnPair p .missing d dependency
  | some j =>
      if j = i then reportOn p .cycle d
      else if i < j then reportOnPair p .outOfOrder d dependency
      else .ok ()

/-- Checks the declarations of `rest`, of which the first has place `i`. -/
def checkFrom (positions : Positions) : Nat → List DeclId → Except Error Unit
  | _, [] => .ok ()
  | i, d :: rest => do
      let dependencies ← (p.dependencies d).mapError Error.fault
      dependencies.forM (checkDependency p positions i d)
      checkFrom positions (i + 1) rest

/-- Accepts an order in which no declaration is repeated and every dependency is present and
earlier, and otherwise reports what it meets first. -/
def ofOrder (order : List DeclId) : Except Error Closure :=
  match placeFrom 0 [] order with
  | .error d => reportOn p .duplicate d
  | .ok positions => do
      checkFrom p positions 0 order
      return ⟨order, positions⟩

/-- Appends to `order` what `d` depends on and is not yet there, then `d`. The search stands inside
the declarations of `path`, so meeting one of them again is a cycle. With as many steps left as
there are declarations outside `path`, only a reference to nothing can use them up. -/
def visit : Nat → List DeclId → List DeclId → DeclId → Except Error (List DeclId)
  | steps, path, order, d =>
      if d ∈ order then .ok order
      else if d ∈ path then reportOn p .cycle d
      else match steps with
        | 0 => .error (.fault (.dangling d))
        | steps + 1 => do
            let dependencies ← (p.dependencies d).mapError Error.fault
            let order ← dependencies.foldlM (visit steps (d :: path)) order
            return order ++ [d]
termination_by structural steps => steps

/-- The closure of a shader, in post-order of a depth-first search which follows references in the
order they are first made. -/
def ofShader (s : Shader) : Except Error Closure := do
  let order ← s.references.foldlM (visit p p.size []) []
  ofOrder p order

variable (c : Closure)

def position? (d : DeclId) : Option Nat := c.positions.lookup d

def contains (d : DeclId) : Bool := (c.positions.lookup d).isSome

def terms : List Nat :=
  c.order.filterMap fun
    | .term i => some i
    | .record _ => none

def records : List Nat :=
  c.order.filterMap fun
    | .record i => some i
    | .term _ => none

end Closure

end ShaderDialects
