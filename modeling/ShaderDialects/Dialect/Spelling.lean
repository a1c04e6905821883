import ShaderDialects.Dialect.Tree

namespace ShaderDialects.Dialect

namespace BinaryOp

def all : List BinaryOp :=
  [add, subtract, multiply, divide, modulo, less, lessEqual, greater, greaterEqual, equal, notEqual,
   logicalAnd, logicalOr, logicalXor, bitAnd, bitOr, bitXor, shiftLeft, shiftRight]

def symbol : BinaryOp → String
  | add => "+"
  | subtract => "-"
  | multiply => "*"
  | divide => "/"
  | modulo => "%"
  | less => "<"
  | lessEqual => "<="
  | greater => ">"
  | greaterEqual => ">="
  | equal => "=="
  | notEqual => "!="
  | logicalAnd => "&&"
  | logicalOr => "||"
  | logicalXor => "^^"
  | bitAnd => "&"
  | bitOr => "|"
  | bitXor => "^"
  | shiftLeft => "<<"
  | shiftRight => ">>"

def title : BinaryOp → String
  | add => "Add"
  | subtract => "Subtract"
  | multiply => "Multiply"
  | divide => "Divide"
  | modulo => "Modulo"
  | less => "Less"
  | lessEqual => "LessEqual"
  | greater => "Greater"
  | greaterEqual => "GreaterEqual"
  | equal => "Equal"
  | notEqual => "NotEqual"
  | logicalAnd => "LogicalAnd"
  | logicalOr => "LogicalOr"
  | logicalXor => "LogicalXor"
  | bitAnd => "And"
  | bitOr => "InclusiveOr"
  | bitXor => "ExclusiveOr"
  | shiftLeft => "ShiftLeft"
  | shiftRight => "ShiftRight"

def ofTitle? (s : String) : Option BinaryOp := all.find? fun op => op.title = s

end BinaryOp

namespace UnaryOp

def all : List UnaryOp := [negate, logicalNot, bitNot]

def symbol : UnaryOp → String
  | negate => "-"
  | logicalNot => "!"
  | bitNot => "~"

def title : UnaryOp → String
  | negate => "Negate"
  | logicalNot => "LogicalNot"
  | bitNot => "BitwiseNot"

def ofTitle? (s : String) : Option UnaryOp := all.find? fun op => op.title = s

end UnaryOp

end ShaderDialects.Dialect
