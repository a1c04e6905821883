import ShaderDialects.Leaf

namespace ShaderDialects

/-- A single-precision number, held as its bit pattern so that every NaN stays itself. -/
structure Single where
  bits : UInt32
  deriving DecidableEq

inductive Literal where
  | bool (value : Bool)
  | int (value : Int32)
  | uint (value : UInt32)
  | float (value : Single)
  deriving DecidableEq

def Literal.leaf : Literal → Leaf
  | bool _ => .bool
  | int _ => .int
  | uint _ => .uint
  | float _ => .float

inductive Component where
  | x
  | y
  | z
  | w
  deriving DecidableEq

namespace Component

def letter : Component → Char
  | x => 'x'
  | y => 'y'
  | z => 'z'
  | w => 'w'

def ofLetter? : Char → Option Component
  | 'x' => some x
  | 'y' => some y
  | 'z' => some z
  | 'w' => some w
  | _ => none

end Component

structure Swizzle where
  components : List Component
  length_le : components.length ≤ 4

namespace Swizzle

def ofList? (cs : List Component) : Option Swizzle :=
  if h : cs.length ≤ 4 then some ⟨cs, h⟩ else none

def text (s : Swizzle) : String := String.ofList (s.components.map Component.letter)

end Swizzle

end ShaderDialects
