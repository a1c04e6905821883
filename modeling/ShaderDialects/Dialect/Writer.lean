import ShaderDialects.Dialect.Literal
import ShaderDialects.Dialect.Spelling

namespace ShaderDialects.Dialect

inductive Precision where
  | low
  | medium
  | high

def Precision.text : Precision → String
  | low => "lowp"
  | medium => "mediump"
  | high => "highp"

structure Config where
  /-- Whether the text opens with a version directive. -/
  versionDirective : Bool := false
  /-- Whether comments tell where the shader and its declarations come from. -/
  sourceComments : Bool := false
  precision : Precision := .high

variable {m : Type → Type} [Monad m] (put : String → m Unit)

def putAll (pieces : List String) : m Unit := pieces.forM put

def putIf (c : Bool) (pieces : List String) : m Unit := if c then putAll put pieces else return

def putIndent : Nat → m Unit
  | 0 => return
  | level + 1 => do
      put "    "
      putIndent level

/-- The magnitude of the least integer is not an integer, so that one is a difference. -/
def writeLiteral : Literal → m Unit
  | .bool true => put "true"
  | .bool false => put "false"
  | .int n =>
      if n = Int32.minValue then putAll put ["(", toString (n.toInt + 1), " - 1)"]
      else put (toString n.toInt)
  | .uint n => putAll put [toString n.toNat, "u"]
  | .float x => put x.text

def writeComponents (s : Swizzle) : m Unit := s.components.forM fun c => put c.letter.toString

namespace Expr

mutual

def write : Expr → m Unit
  | literal v => writeLiteral put v
  | var n => put n
  | builtin n => put n
  | call c args => do
      putAll put [c.name, "("]
      writeArgs args
      put ")"
  | binary op l r => do
      put "("
      write l
      putAll put [" ", op.symbol, " "]
      write r
      put ")"
  | unary op e => do
      putAll put ["(", op.symbol]
      write e
      put ")"
  | field e n => do
      write e
      putAll put [".", n]
  | swizzle e s => do
      write e
      put "."
      writeComponents put s
  | index e i => do
      write e
      putAll put ["[", toString i, "]"]

def writeArgs : List Expr → m Unit
  | [] => return
  | e :: es => do
      write e
      writeMoreArgs es

def writeMoreArgs : List Expr → m Unit
  | [] => return
  | e :: es => do
      put ", "
      write e
      writeMoreArgs es

end

def writeInit : Option Expr → m Unit
  | none => return
  | some e => do
      put " = "
      e.write put

end Expr

namespace Stmt

mutual

def write (level : Nat) : Stmt → m Unit
  | declare name ty init => do
      putIndent put level
      putAll put [ty.name, " ", name]
      Expr.writeInit put init
      put ";\n"
  | assign target value => do
      putIndent put level
      putAll put [target, " = "]
      value.write put
      put ";\n"
  | cond c accept reject => do
      putIndent put level
      put "if ("
      c.write put
      put ") \x7b\n"
      writeBlock (level + 1) accept
      writeElse level reject
      putIndent put level
      put "\x7d\n"
  | block body => do
      putIndent put level
      put "\x7b\n"
      writeBlock (level + 1) body
      putIndent put level
      put "\x7d\n"
  | .return value => do
      putIndent put level
      put "return "
      value.write put
      put ";\n"

def writeBlock (level : Nat) : List Stmt → m Unit
  | [] => return
  | s :: ss => do
      write level s
      writeBlock level ss

/-- The other branch of a conditional; one without statements is left out. -/
def writeElse (level : Nat) : List Stmt → m Unit
  | [] => return
  | s :: ss => do
      putIndent put level
      put "\x7d else \x7b\n"
      write (level + 1) s
      writeBlock (level + 1) ss

end

end Stmt

namespace Storage

def writeLocation : Option Nat → m Unit
  | some n => putAll put ["layout(location = ", toString n, ") "]
  | none => return

def write : Storage → m Unit
  | .attribute => put "attribute "
  | varying => put "varying "
  | input flat => do
      putIf put flat ["flat "]
      put "in "
  | output flat location => do
      writeLocation put location
      putIf put flat ["flat "]
      put "out "

end Storage

def InterfaceVar.write (v : InterfaceVar) : m Unit := do
  v.storage.write put
  putAll put [v.leaf.name, " ", v.name, ";\n"]

def UniformVar.write (u : UniformVar) : m Unit :=
  putAll put ["uniform ", u.leaf.name, " ", u.name, ";\n"]

namespace Variable

def writeField (v : Variable) : m Unit := do
  putIndent put 1
  putAll put [v.ty.name, " ", v.name, ";\n"]

def writeParam (v : Variable) : m Unit := putAll put [v.ty.name, " ", v.name]

def writeParams : List Variable → m Unit
  | [] => return
  | v :: vs => do
      v.writeParam put
      vs.forM fun w => do
        put ", "
        w.writeParam put

end Variable

namespace Decl

def writeKind (d : Decl) : m Unit :=
  match d.kind with
  | .struct fields => do
      putAll put ["struct ", d.name, " \x7b\n"]
      fields.forM (Variable.writeField put)
      put "\x7d;\n"
  | .function params result body => do
      putAll put [result.name, " ", d.name, "("]
      Variable.writeParams put params
      put ") \x7b\n"
      Stmt.writeBlock put 1 body
      put "\x7d\n"
  | .constant ty value => do
      putAll put ["const ", ty.name, " ", d.name, " = "]
      value.write put
      put ";\n"

def write (config : Config) (d : Decl) : m Unit := do
  putIf put config.sourceComments ["// ", d.origin.text, "\n"]
  d.writeKind put
  put "\n"

end Decl

def Sink.write : Sink → m Unit
  | var name => put name
  | position => put "gl_Position"
  | fragColor => put "gl_FragColor"
  | fragData n => putAll put ["gl_FragData[", toString n, "]"]
  | fragDepth => put "gl_FragDepth"

namespace Main

def writeDiscard (condition : Expr) : m Unit := do
  putIndent put 1
  put "if ("
  condition.write put
  put ") \x7b\n"
  putIndent put 2
  put "discard;\n"
  putIndent put 1
  put "\x7d\n"

def writeOutput (o : OutputWrite) : m Unit := do
  putIndent put 1
  o.sink.write put
  put " = "
  o.value.write put
  put ";\n"

def write (b : Main) : m Unit := do
  put "void main() \x7b\n"
  Stmt.writeBlock put 1 b.statements
  b.discards.forM (writeDiscard put)
  b.outputs.forM (writeOutput put)
  put "\x7d\n"

end Main

namespace Shader

variable (config : Config) (s : Shader)

def hasHeader : Bool :=
  config.versionDirective || config.sourceComments || s.version.family = .embedded
    || !s.uniforms.isEmpty || !(s.inputs ++ s.outputs).isEmpty

/-- Directive, comment, precision, interface, and an empty line if there was any of these; then the
declarations and the entry point. -/
def write : m Unit := do
  putIf put config.versionDirective [s.version.directive, "\n"]
  putIf put config.sourceComments
    ["// ", s.stage.name, " shader `", s.name, "` for ", s.version.name, "\n"]
  putIf put (s.version.family = .embedded) ["precision ", config.precision.text, " float;\n"]
  s.uniforms.forM (UniformVar.write put)
  (s.inputs ++ s.outputs).forM (InterfaceVar.write put)
  putIf put (s.hasHeader config) ["\n"]
  s.decls.forM (Decl.write put config)
  s.main.write put

end Shader

end ShaderDialects.Dialect
