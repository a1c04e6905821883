namespace ShaderDialects

inductive Scalar where
  | bool
  | int
  | uint
  | float
  deriving DecidableEq

inductive Extent where
  | two
  | three
  | four
  deriving DecidableEq

namespace Extent

def length : Extent → Nat
  | two => 2
  | three => 3
  | four => 4

def ofLength? : Nat → Option Extent
  | 2 => some two
  | 3 => some three
  | 4 => some four
  | _ => none

theorem ofLength?_length (n : Extent) : ofLength? n.length = some n := by
  cases n <;> rfl

end Extent

inductive Texture where
  | flat
  | cube
  deriving DecidableEq

/-- A type which is not a record. Matrices hold floats and are stored by columns. -/
inductive Leaf where
  | scalar (kind : Scalar)
  | vector (kind : Scalar) (size : Extent)
  | matrix (columns rows : Extent)
  | sampler (texture : Texture)
  deriving DecidableEq

namespace Leaf

abbrev bool : Leaf := scalar .bool
abbrev int : Leaf := scalar .int
abbrev uint : Leaf := scalar .uint
abbrev float : Leaf := scalar .float
abbrev vec4 : Leaf := vector .float .four

/-- The kind of the components; a sampler has none. -/
def scalarKind : Leaf → Option Scalar
  | scalar k => some k
  | vector k _ => some k
  | matrix _ _ => some .float
  | sampler _ => none

def isInteger (t : Leaf) : Bool := t.scalarKind = some .int || t.scalarKind = some .uint

def isUnsigned (t : Leaf) : Bool := t.scalarKind = some .uint

def isBoolean (t : Leaf) : Bool := t.scalarKind = some .bool

def isSampler : Leaf → Bool
  | sampler _ => true
  | _ => false

def isNonSquare : Leaf → Bool
  | matrix columns rows => columns ≠ rows
  | _ => false

/-- The spelling of the type. A matrix names its columns first, and only once when it is square. -/
def name : Leaf → String
  | scalar .bool => "bool"
  | scalar .int => "int"
  | scalar .uint => "uint"
  | scalar .float => "float"
  | vector .bool .two => "bvec2"
  | vector .bool .three => "bvec3"
  | vector .bool .four => "bvec4"
  | vector .int .two => "ivec2"
  | vector .int .three => "ivec3"
  | vector .int .four => "ivec4"
  | vector .uint .two => "uvec2"
  | vector .uint .three => "uvec3"
  | vector .uint .four => "uvec4"
  | vector .float .two => "vec2"
  | vector .float .three => "vec3"
  | vector .float .four => "vec4"
  | matrix .two .two => "mat2"
  | matrix .two .three => "mat2x3"
  | matrix .two .four => "mat2x4"
  | matrix .three .two => "mat3x2"
  | matrix .three .three => "mat3"
  | matrix .three .four => "mat3x4"
  | matrix .four .two => "mat4x2"
  | matrix .four .three => "mat4x3"
  | matrix .four .four => "mat4"
  | sampler .flat => "sampler2D"
  | sampler .cube => "samplerCube"

def all : List Leaf :=
  let kinds := [Scalar.bool, .int, .uint, .float]
  let sizes := [Extent.two, .three, .four]
  kinds.map scalar ++ kinds.flatMap (fun k => sizes.map (vector k))
    ++ sizes.flatMap (fun c => sizes.map (matrix c)) ++ [sampler .flat, sampler .cube]

def ofName? (s : String) : Option Leaf := all.find? (fun t => t.name = s)

theorem mem_all (t : Leaf) : t ∈ all := by
  rcases t with k | ⟨k, n⟩ | ⟨c, r⟩ | k
  · cases k <;> decide
  · cases k <;> cases n <;> decide
  · cases c <;> cases r <;> decide
  · cases k <;> decide

end Leaf

end ShaderDialects
