import ShaderDialects.Source.Expr

namespace ShaderDialects

structure Field where
  name : String
  ty : Ty

structure Record where
  name : String
  fields : List Field
  span : Span := {}

inductive ExternalKind where
  | function
  | value
  deriving DecidableEq

def ExternalKind.name : ExternalKind → String
  | function => "function"
  | value => "value"

/-- The type of an external; builtins only deal in leaf types. -/
inductive Signature where
  | function (params : List Leaf) (result : Leaf)
  | value (leaf : Leaf)

namespace Signature

def kind : Signature → ExternalKind
  | function _ _ => .function
  | value _ => .value

def result : Signature → Leaf
  | function _ r => r
  | value r => r

def leaves : Signature → List Leaf
  | function params r => params ++ [r]
  | value r => [r]

end Signature

inductive TermKind where
  | function (params : List Binding) (result : Ty) (body : Expr)
  | value (ty : Ty) (body : Expr)
  | external (symbol : String) (signature : Signature)

structure Term where
  name : String
  kind : TermKind
  span : Span := {}

structure Program where
  records : List Record := []
  terms : List Term := []

inductive DeclId where
  | record (index : Nat)
  | term (index : Nat)
  deriving DecidableEq

/-- What is wrong with a program when a reference into it cannot be followed. -/
inductive Fault where
  | dangling (decl : DeclId)
  | endless (record : Nat)

def Fault.message : Fault → String
  | dangling (.record i) => "there is no record " ++ toString i
  | dangling (.term i) => "there is no term " ++ toString i
  | endless i => "record " ++ toString i ++ " holds itself"

namespace Program

variable (p : Program)

def record (i : Nat) : Except Fault Record :=
  match p.records[i]? with
  | some r => .ok r
  | none => .error (.dangling (.record i))

def term (i : Nat) : Except Fault Term :=
  match p.terms[i]? with
  | some t => .ok t
  | none => .error (.dangling (.term i))

def size : Nat := p.records.length + p.terms.length

def declIds : List DeclId :=
  (List.range p.records.length).map .record ++ (List.range p.terms.length).map .term

def nameOf : DeclId → Except Fault String
  | .record i => (p.record i).map Record.name
  | .term i => (p.term i).map Term.name

def typeName : Ty → Except Fault String
  | .leaf t => .ok t.name
  | .record i => (p.record i).map Record.name

end Program

end ShaderDialects
