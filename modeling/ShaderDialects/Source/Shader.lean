import ShaderDialects.Source.Program

namespace ShaderDialects

inductive Stage where
  | vertex
  | fragment
  deriving DecidableEq

def Stage.name : Stage → String
  | vertex => "vertex"
  | fragment => "fragment"

structure Slot where
  name : String
  ty : Ty
  span : Span := {}

inductive Target where
  | varying
  | position
  | attachment (index : Nat)
  | depth
  deriving DecidableEq

def Target.describe : Target → String
  | varying => "Varying"
  | position => "Position"
  | attachment i => "Attachment(" ++ toString i ++ ")"
  | depth => "Depth"

structure Output extends Slot where
  target : Target

inductive Step where
  | bind (binding : Binding) (value : Expr)
  | discard (condition : Expr) (span : Span)

def Step.expr : Step → Expr
  | bind _ value => value
  | discard condition _ => condition

structure Assignment where
  output : Nat
  value : Expr

structure Shader where
  name : String
  stage : Stage
  inputs : List Slot := []
  outputs : List Output := []
  parameters : List Slot := []
  steps : List Step := []
  assignments : List Assignment := []
  span : Span := {}

namespace Shader

def exprs (s : Shader) : List Expr := s.steps.map Step.expr ++ s.assignments.map Assignment.value

def positions (s : Shader) : Nat := s.outputs.countP (fun o => o.target = .position)

def attachments (s : Shader) : List Nat :=
  s.outputs.filterMap fun o => match o.target with
    | .attachment i => some i
    | _ => none

end Shader

end ShaderDialects
