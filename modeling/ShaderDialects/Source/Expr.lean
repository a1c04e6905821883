import ShaderDialects.Literal

namespace ShaderDialects

structure Span where
  start : Nat := 0
  stop : Nat := 0
  deriving DecidableEq

def Span.text (s : Span) : String := toString s.start ++ ".." ++ toString s.stop

/-- The type of a source value; a record is named by its place among the declared records. -/
inductive Ty where
  | leaf (leaf : Leaf)
  | record (record : Nat)
  deriving DecidableEq

def Ty.leaf? : Ty → Option Leaf
  | leaf t => some t
  | record _ => none

structure Binding where
  id : Nat
  name : String
  ty : Ty

structure Note where
  ty : Ty
  span : Span := {}

inductive Expr where
  | literal (note : Note) (value : Literal)
  | bound (note : Note) (id : Nat)
  | term (note : Note) (term : Nat)
  | input (note : Note) (index : Nat)
  | parameter (note : Note) (index : Nat)
  | apply (note : Note) (function : Nat) (args : List Expr)
  | cond (note : Note) (condition accept reject : Expr)
  | bind (note : Note) (binding : Binding) (value body : Expr)
  | construct (note : Note) (record : Nat) (fields : List Expr)
  | field (note : Note) (base : Expr) (index : Nat)
  | swizzle (note : Note) (base : Expr) (components : Swizzle)

namespace Expr

def note : Expr → Note
  | literal n _ | bound n _ | term n _ | input n _ | parameter n _ | apply n _ _ | cond n _ _ _
  | bind n _ _ _ | construct n _ _ | field n _ _ | swizzle n _ _ => n

def ty (e : Expr) : Ty := e.note.ty

def span (e : Expr) : Span := e.note.span

/-- The direct subexpressions, in the order they are evaluated. -/
def children : Expr → List Expr
  | literal _ _ | bound _ _ | term _ _ | input _ _ | parameter _ _ => []
  | apply _ _ args => args
  | cond _ c a r => [c, a, r]
  | bind _ _ value body => [value, body]
  | construct _ _ fields => fields
  | field _ base _ => [base]
  | swizzle _ base _ => [base]

mutual

def nodes : Expr → List Expr
  | literal n v => [literal n v]
  | bound n i => [bound n i]
  | term n t => [term n t]
  | input n i => [input n i]
  | parameter n i => [parameter n i]
  | apply n f args => apply n f args :: nodesOf args
  | cond n c a r => cond n c a r :: (nodes c ++ nodes a ++ nodes r)
  | bind n b value body => bind n b value body :: (nodes value ++ nodes body)
  | construct n r fields => construct n r fields :: nodesOf fields
  | field n base i => field n base i :: nodes base
  | swizzle n base s => swizzle n base s :: nodes base

def nodesOf : List Expr → List Expr
  | [] => []
  | e :: es => nodes e ++ nodesOf es

end

theorem nodesOf_eq_flatMap (es : List Expr) : nodesOf es = es.flatMap nodes := by
  induction es with
  | nil => rfl
  | cons e es ih => simp [nodesOf, ih]

theorem nodes_eq (e : Expr) : e.nodes = e :: e.children.flatMap nodes := by
  cases e <;> simp [nodes, children, nodesOf_eq_flatMap]

/-- The parameter and the field path, when the expression is a chain of field accesses on a
shader parameter. -/
def parameterPath? : Expr → Option (Nat × List Nat)
  | parameter _ index => some (index, [])
  | field _ base index => (parameterPath? base).map (fun p => (p.1, p.2 ++ [index]))
  | _ => none

/-- Whether the expression needs statements of its own in a language without conditional and
let expressions. -/
def isBranching : Expr → Bool
  | cond _ _ _ _ | bind _ _ _ _ => true
  | _ => false

end Expr

end ShaderDialects
