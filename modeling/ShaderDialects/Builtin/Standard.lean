import ShaderDialects.Builtin.Table

namespace ShaderDialects.Table.Standard

open Dialect (BinaryOp)

/-- Where integers, `in` and `out`, and the overloaded texture lookup arrived. -/
def modern : VersionSet := .since .v300 .v130

def legacy : VersionSet := .before .v300 .v130

def function (symbol : String) (rules : List Rule) : Definition := ⟨.function, symbol, rules⟩

def value (symbol : String) (rules : List Rule) : Definition := ⟨.value, symbol, rules⟩

def native (versions : VersionSet) (form : Form) : Rule :=
  { versions := versions, decision := .native form }

def emulated (e : Emulation) : Rule := { versions := .universal, decision := .emulated e }

def onlyVertex (r : Rule) : Rule := { r with stages := ⟨true, false⟩ }

def onlyFragment (r : Rule) : Rule := { r with stages := ⟨false, true⟩ }

def everywhere (name : String) : Definition := function name [native .universal (.call name)]

def emulatedBefore (versions : VersionSet) (e : Emulation) : Definition :=
  function e.symbol [native versions (.call e.symbol), emulated e]

def operators : List (String × BinaryOp) :=
  [("add", .add), ("sub", .subtract), ("mul", .multiply), ("div", .divide), ("lt", .less),
   ("le", .lessEqual), ("gt", .greater), ("ge", .greaterEqual), ("eq", .equal), ("ne", .notEqual),
   ("and", .logicalAnd), ("or", .logicalOr), ("xor", .logicalXor)]

def bitOperators : List (String × BinaryOp) :=
  [("bit_and", .bitAnd), ("bit_or", .bitOr), ("bit_xor", .bitXor), ("shl", .shiftLeft),
   ("shr", .shiftRight)]

def mathematics : List String :=
  ["sin", "cos", "tan", "asin", "acos", "atan", "pow", "exp", "log", "exp2", "log2", "sqrt",
   "inversesqrt", "abs", "sign", "floor", "ceil", "fract", "mod", "min", "max", "clamp", "mix",
   "step", "smoothstep", "length", "distance", "dot", "cross", "normalize", "reflect", "refract",
   "faceforward", "matrixCompMult", "any", "all"]

def comparisons : List (String × String) :=
  [("less_than", "lessThan"), ("less_than_equal", "lessThanEqual"), ("greater_than", "greaterThan"),
   ("greater_than_equal", "greaterThanEqual"), ("equal", "equal"), ("not_equal", "notEqual")]

def constructors : List String :=
  ["float", "int", "bool", "vec2", "vec3", "vec4", "ivec2", "ivec3", "ivec4", "bvec2", "bvec3",
   "bvec4", "mat2", "mat3", "mat4"]

def unsignedConstructors : List String := ["uint", "uvec2", "uvec3", "uvec4"]

def nonSquareConstructors : List String :=
  ["mat2x3", "mat2x4", "mat3x2", "mat3x4", "mat4x2", "mat4x3"]

def arithmetic : List Definition :=
  operators.map (fun (symbol, op) => function symbol [native .universal (.binary op)])
    ++ bitOperators.map (fun (symbol, op) => function symbol [native modern (.binary op)])
    ++ [function "not" [native .universal (.unary .logicalNot)],
        function "neg" [native .universal (.unary .negate)],
        function "bit_not" [native modern (.unary .bitNot)],
        function "rem" [native modern (.binary .modulo), emulated .remainder]]

def mathFunctions : List Definition :=
  mathematics.map everywhere
    ++ comparisons.map (fun (symbol, name) => function symbol [native .universal (.call name)])
    ++ [Emulation.round, .truncate, .sinh, .cosh, .tanh, .isNaN].map (emulatedBefore modern)
    ++ [emulatedBefore (.since .v300 .v120) .transpose,
        emulatedBefore (.since .v300 .v150) .determinant,
        emulatedBefore (.since .v300 .v140) .inverse]

def constructorFunctions : List Definition :=
  constructors.map everywhere
    ++ unsignedConstructors.map (fun name => function name [native modern (.call name)])
    ++ nonSquareConstructors.map
        (fun name => function name [native (.since .v300 .v120) (.call name)])

/-- Texture lookups took other names when one overloaded function replaced them. -/
def textures : List Definition :=
  [function "texture_2d" [native legacy (.call "texture2D"), native modern (.call "texture")],
   function "texture_cube" [native legacy (.call "textureCube"), native modern (.call "texture")],
   function "texture_2d_lod"
     [onlyVertex (native legacy (.call "texture2DLod")), native modern (.call "textureLod")],
   function "texture_2d_bias"
     [onlyFragment (native legacy (.call "texture2D")),
      onlyFragment (native modern (.call "texture"))],
   function "texel_fetch_2d" [native modern (.call "texelFetch")],
   function "texture_size_2d" [native modern (.call "textureSize")],
   function "texture_grad_2d" [native modern (.call "textureGrad")]]

/-- Derivatives exist in fragment shaders only, and not in GLSL ES 1.00. -/
def derivatives : List Definition :=
  [("dfdx", "dFdx"), ("dfdy", "dFdy"), ("fwidth", "fwidth")].map fun (symbol, name) =>
    function symbol [onlyFragment (native (.since .v300 .v110) (.call name))]

def values : List Definition :=
  [value "frag_coord" [onlyFragment (native .universal (.var "gl_FragCoord"))],
   value "front_facing" [onlyFragment (native .universal (.var "gl_FrontFacing"))],
   value "point_coord" [onlyFragment (native (.since .v100 .v120) (.var "gl_PointCoord"))],
   value "vertex_id" [onlyVertex (native modern (.var "gl_VertexID"))],
   value "instance_id"
     [onlyVertex (native (.since .v300 .v140) (.var "gl_InstanceID"))],
   value "pi" [emulated .pi]]

end Standard

def standard : Table :=
  TableBuilder.build ⟨Standard.arithmetic ++ Standard.mathFunctions ++ Standard.constructorFunctions
    ++ Standard.textures ++ Standard.derivatives ++ Standard.values⟩

end ShaderDialects.Table
