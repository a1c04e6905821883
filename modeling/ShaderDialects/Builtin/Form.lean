import ShaderDialects.Dialect.Spelling
import ShaderDialects.Text.Quoted

namespace ShaderDialects

inductive Form where
  | call (name : String)
  | binary (op : Dialect.BinaryOp)
  | unary (op : Dialect.UnaryOp)
  | var (name : String)
  deriving DecidableEq

namespace Form

/-- The identifier a form occupies; operators have none. -/
def name? : Form → Option String
  | call n => some n
  | var n => some n
  | binary _ => none
  | unary _ => none

def isVariable : Form → Bool
  | var _ => true
  | _ => false

def describe : Form → String
  | call n => "Call(" ++ Text.quoted n ++ ")"
  | binary op => "Binary(" ++ op.title ++ ")"
  | unary op => "Unary(" ++ op.title ++ ")"
  | var n => "Variable(" ++ Text.quoted n ++ ")"

end Form

/-- The native form the node itself is an instance of. -/
def Dialect.Expr.form? : Dialect.Expr → Option Form
  | call (.native n) _ => some (.call n)
  | builtin n => some (.var n)
  | binary op _ _ => some (.binary op)
  | unary op _ => some (.unary op)
  | _ => none

end ShaderDialects
