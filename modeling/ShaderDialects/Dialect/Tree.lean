import ShaderDialects.Source.Shader
import ShaderDialects.Version.Basic

namespace ShaderDialects.Dialect

inductive Ty where
  | leaf (leaf : Leaf)
  | struct (name : String)

namespace Ty

def leaf? : Ty → Option Leaf
  | leaf t => some t
  | struct _ => none

def name : Ty → String
  | leaf t => t.name
  | struct n => n

end Ty

inductive BinaryOp where
  | add | subtract | multiply | divide | modulo
  | less | lessEqual | greater | greaterEqual | equal | notEqual
  | logicalAnd | logicalOr | logicalXor
  | bitAnd | bitOr | bitXor | shiftLeft | shiftRight
  deriving DecidableEq

inductive UnaryOp where
  | negate | logicalNot | bitNot
  deriving DecidableEq

/-- What a call calls: a function or constructor of the language, or one the shader declares. -/
inductive Callee where
  | native (name : String)
  | user (name : String)
  deriving DecidableEq

def Callee.name : Callee → String
  | native n => n
  | user n => n

inductive Expr where
  | literal (value : Literal)
  | var (name : String)
  | builtin (name : String)
  | call (callee : Callee) (args : List Expr)
  | binary (op : BinaryOp) (left right : Expr)
  | unary (op : UnaryOp) (operand : Expr)
  | field (base : Expr) (name : String)
  | swizzle (base : Expr) (components : Swizzle)
  | index (base : Expr) (index : Nat)

namespace Expr

def native (name : String) (args : List Expr) : Expr := call (.native name) args

def user (name : String) (args : List Expr) : Expr := call (.user name) args

end Expr

inductive Stmt where
  | declare (name : String) (ty : Ty) (init : Option Expr)
  | assign (target : String) (value : Expr)
  | cond (condition : Expr) (accept reject : List Stmt)
  | block (body : List Stmt)
  | return (value : Expr)

inductive Origin where
  | record (record : Nat) (name : String)
  | term (term : Nat) (name : String)
  | emulation (symbol : String)

def Origin.text : Origin → String
  | record _ n => "record " ++ n
  | term _ n => "term " ++ n
  | emulation s => "emulation of " ++ s

structure Variable where
  name : String
  ty : Ty

inductive DeclKind where
  | struct (fields : List Variable)
  | function (params : List Variable) (result : Ty) (body : List Stmt)
  | constant (ty : Ty) (value : Expr)

structure Decl where
  name : String
  origin : Origin
  kind : DeclKind

/-- How an input or output is qualified. Attributes and varyings are those of legacy versions. -/
inductive Storage where
  | attribute
  | varying
  | input (flat : Bool)
  | output (flat : Bool) (location : Option Nat)

structure InterfaceVar where
  name : String
  leaf : Leaf
  storage : Storage

/-- A uniform: its identifier, the dotted name it is bound by, and its type. -/
structure UniformVar where
  name : String
  wireName : String
  leaf : Leaf

inductive Sink where
  | var (name : String)
  | position
  | fragColor
  | fragData (index : Nat)
  | fragDepth
  deriving DecidableEq

structure OutputWrite where
  sink : Sink
  leaf : Leaf
  value : Expr

/-- The body of the entry point. The output writes follow the statements, and in a fragment
shader the discards stand between the two. -/
inductive Main where
  | vertex (statements : List Stmt) (outputs : List OutputWrite)
  | fragment (statements : List Stmt) (discards : List Expr) (outputs : List OutputWrite)

namespace Main

def stage : Main → Stage
  | vertex _ _ => .vertex
  | fragment _ _ _ => .fragment

def statements : Main → List Stmt
  | vertex ss _ => ss
  | fragment ss _ _ => ss

def discards : Main → List Expr
  | vertex _ _ => []
  | fragment _ ds _ => ds

def outputs : Main → List OutputWrite
  | vertex _ os => os
  | fragment _ _ os => os

end Main

structure Shader where
  name : String
  version : Version
  inputs : List InterfaceVar
  outputs : List InterfaceVar
  uniforms : List UniformVar
  decls : List Decl
  main : Main
  /-- The stage the shader says it is for, which is that of its body unless given otherwise. -/
  stage : Stage := main.stage

namespace Shader

def declIndex? (s : Shader) (name : String) : Option Nat := s.decls.findIdx? fun d => d.name = name

end Shader

end ShaderDialects.Dialect
