import ShaderDialects.Dialect.Tree

namespace ShaderDialects.Dialect

namespace Expr

mutual

def nodes : Expr → List Expr
  | literal v => [literal v]
  | var n => [var n]
  | builtin n => [builtin n]
  | call c args => call c args :: nodesOf args
  | binary op l r => binary op l r :: (nodes l ++ nodes r)
  | unary op e => unary op e :: nodes e
  | field e n => field e n :: nodes e
  | swizzle e s => swizzle e s :: nodes e
  | index e i => index e i :: nodes e

def nodesOf : List Expr → List Expr
  | [] => []
  | e :: es => nodes e ++ nodesOf es

end

/-- The identifier the node itself mentions, if the shader could have declared it. -/
def mention? : Expr → Option String
  | var n => some n
  | call (.user n) _ => some n
  | _ => none

end Expr

namespace Stmt

mutual

def exprs : Stmt → List Expr
  | declare _ _ init => init.toList
  | assign _ value => [value]
  | cond c accept reject => c :: (exprsOf accept ++ exprsOf reject)
  | block body => exprsOf body
  | .return value => [value]

def exprsOf : List Stmt → List Expr
  | [] => []
  | s :: ss => exprs s ++ exprsOf ss

end

mutual

def localTypes : Stmt → List Ty
  | declare _ ty _ => [ty]
  | cond _ accept reject => localTypesOf accept ++ localTypesOf reject
  | block body => localTypesOf body
  | assign _ _ => []
  | .return _ => []

def localTypesOf : List Stmt → List Ty
  | [] => []
  | s :: ss => localTypes s ++ localTypesOf ss

end

end Stmt

namespace DeclKind

def signatureTypes : DeclKind → List Ty
  | struct fields => fields.map Variable.ty
  | function params result _ => params.map Variable.ty ++ [result]
  | constant ty _ => [ty]

def localTypes : DeclKind → List Ty
  | function _ _ body => Stmt.localTypesOf body
  | _ => []

def types (k : DeclKind) : List Ty := k.signatureTypes ++ k.localTypes

def exprs : DeclKind → List Expr
  | struct _ => []
  | function _ _ body => Stmt.exprsOf body
  | constant _ value => [value]

def nodes (k : DeclKind) : List Expr := k.exprs.flatMap Expr.nodes

end DeclKind

def Ty.mention? : Ty → Option String
  | leaf _ => none
  | struct n => some n

/-- Every identifier the declaration mentions: its types first, then the variables and callees of
its expressions. Its own locals and parameters are among them. -/
def Decl.mentions (d : Decl) : List String :=
  d.kind.types.filterMap Ty.mention? ++ d.kind.nodes.filterMap Expr.mention?

namespace Main

def exprs (m : Main) : List Expr :=
  Stmt.exprsOf m.statements ++ m.discards ++ m.outputs.map OutputWrite.value

end Main

namespace Shader

variable (s : Shader)

def nodes : List Expr :=
  s.decls.flatMap (fun d => d.kind.nodes) ++ s.main.exprs.flatMap Expr.nodes

/-- Every type the shader declares something with, interface apart. -/
def types : List Ty :=
  s.decls.flatMap (fun d => d.kind.types) ++ Stmt.localTypesOf s.main.statements

end Shader

end ShaderDialects.Dialect
