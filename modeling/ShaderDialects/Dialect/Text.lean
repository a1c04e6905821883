import ShaderDialects.Dialect.Writer
import ShaderDialects.Text.Buffer

namespace ShaderDialects.Dialect

namespace Expr

mutual

def text : Expr → String
  | literal v => v.text
  | var n => n
  | builtin n => n
  | call c args => c.name ++ "(" ++ argsText args ++ ")"
  | binary op l r => "(" ++ text l ++ " " ++ op.symbol ++ " " ++ text r ++ ")"
  | unary op e => "(" ++ op.symbol ++ text e ++ ")"
  | field e n => text e ++ "." ++ n
  | swizzle e s => text e ++ "." ++ s.text
  | index e i => text e ++ "[" ++ toString i ++ "]"

def argsText : List Expr → String
  | [] => ""
  | e :: es => text e ++ moreArgsText es

def moreArgsText : List Expr → String
  | [] => ""
  | e :: es => ", " ++ text e ++ moreArgsText es

end

end Expr

def indent (level : Nat) : String := String.ofList (List.replicate (4 * level) ' ')

namespace Stmt

mutual

def lines (level : Nat) : Stmt → List String
  | declare name ty none => [indent level ++ ty.name ++ " " ++ name ++ ";"]
  | declare name ty (some init) =>
      [indent level ++ ty.name ++ " " ++ name ++ " = " ++ init.text ++ ";"]
  | assign target value => [indent level ++ target ++ " = " ++ value.text ++ ";"]
  | cond c accept reject =>
      [indent level ++ "if (" ++ c.text ++ ") \x7b"] ++ linesOf (level + 1) accept
        ++ (if reject.isEmpty then []
            else [indent level ++ "\x7d else \x7b"] ++ linesOf (level + 1) reject)
        ++ [indent level ++ "\x7d"]
  | block body =>
      [indent level ++ "\x7b"] ++ linesOf (level + 1) body ++ [indent level ++ "\x7d"]
  | .return value => [indent level ++ "return " ++ value.text ++ ";"]

def linesOf (level : Nat) : List Stmt → List String
  | [] => []
  | s :: ss => lines level s ++ linesOf level ss

end

end Stmt

namespace Storage

def text : Storage → String
  | .attribute => "attribute "
  | varying => "varying "
  | input flat => (if flat then "flat " else "") ++ "in "
  | output flat location =>
      (match location with
        | some n => "layout(location = " ++ toString n ++ ") "
        | none => "")
      ++ (if flat then "flat " else "") ++ "out "

end Storage

def InterfaceVar.line (v : InterfaceVar) : String :=
  v.storage.text ++ v.leaf.name ++ " " ++ v.name ++ ";"

def UniformVar.line (u : UniformVar) : String := "uniform " ++ u.leaf.name ++ " " ++ u.name ++ ";"

def Variable.text (v : Variable) : String := v.ty.name ++ " " ++ v.name

namespace Decl

def kindLines (d : Decl) : List String :=
  match d.kind with
  | .struct fields =>
      ["struct " ++ d.name ++ " \x7b"] ++ fields.map (fun f => indent 1 ++ f.text ++ ";")
        ++ ["\x7d;"]
  | .function params result body =>
      [result.name ++ " " ++ d.name ++ "("
        ++ String.intercalate ", " (params.map Variable.text) ++ ") \x7b"]
        ++ Stmt.linesOf 1 body ++ ["\x7d"]
  | .constant ty value => ["const " ++ ty.name ++ " " ++ d.name ++ " = " ++ value.text ++ ";"]

def lines (config : Config) (d : Decl) : List String :=
  (if config.sourceComments then ["// " ++ d.origin.text] else []) ++ d.kindLines ++ [""]

end Decl

namespace Sink

def text : Sink → String
  | var name => name
  | position => "gl_Position"
  | fragColor => "gl_FragColor"
  | fragData n => "gl_FragData[" ++ toString n ++ "]"
  | fragDepth => "gl_FragDepth"

end Sink

namespace Main

def discardLines (condition : Expr) : List String :=
  [indent 1 ++ "if (" ++ condition.text ++ ") \x7b", indent 2 ++ "discard;", indent 1 ++ "\x7d"]

def outputLine (o : OutputWrite) : String :=
  indent 1 ++ o.sink.text ++ " = " ++ o.value.text ++ ";"

def lines (m : Main) : List String :=
  ["void main() \x7b"] ++ Stmt.linesOf 1 m.statements ++ m.discards.flatMap discardLines
    ++ m.outputs.map outputLine ++ ["\x7d"]

end Main

namespace Shader

variable (config : Config) (s : Shader)

/-- The lines before the declarations: directive, comment, precision, and the interface. -/
def headerLines : List String :=
  (if config.versionDirective then [s.version.directive] else [])
    ++ (if config.sourceComments then
        ["// " ++ s.stage.name ++ " shader `" ++ s.name ++ "` for " ++ s.version.name] else [])
    ++ (if s.version.family = .embedded then
        ["precision " ++ config.precision.text ++ " float;"] else [])
    ++ s.uniforms.map UniformVar.line ++ (s.inputs ++ s.outputs).map InterfaceVar.line

/-- All lines of the text. An empty line ends the header if there is one. -/
def lines : List String :=
  let header := s.headerLines config
  (if header.isEmpty then [] else header ++ [""]) ++ s.decls.flatMap (Decl.lines config)
    ++ s.main.lines

def pieces : List String := (s.lines config).map (· ++ "\n")

def text : String := String.join (s.pieces config)

def writeString : String :=
  (StateT.run (s.write (fun piece => modify (· ++ piece)) config : StateM String Unit) "").2

def writeTo (b : Text.Buffer) : Except Text.Overflow Text.Buffer :=
  (StateT.run (s.write Text.Buffer.put config) b).map Prod.snd

end Shader

end ShaderDialects.Dialect
