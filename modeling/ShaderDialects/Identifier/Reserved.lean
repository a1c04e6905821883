namespace ShaderDialects.Identifier

def reserved : List String :=
  ["active", "asm", "atomic_uint", "attribute", "bool", "break", "buffer", "bvec2", "bvec3",
   "bvec4", "case", "cast", "centroid", "class", "coherent", "common", "const", "continue",
   "default", "discard", "dmat2", "dmat3", "dmat4", "do", "double", "dvec2", "dvec3", "dvec4",
   "else", "enum", "extern", "external", "false", "filter", "fixed", "flat", "float", "for",
   "fvec2", "fvec3", "fvec4", "goto", "half", "highp", "hvec2", "hvec3", "hvec4", "if",
   "iimage2D", "image2D", "in", "inline", "inout", "input", "int", "interface", "invariant",
   "isampler2D", "isampler3D", "isamplerCube", "layout", "long", "lowp", "main", "mat2", "mat2x2",
   "mat2x3", "mat2x4", "mat3", "mat3x2", "mat3x3", "mat3x4", "mat4", "mat4x2", "mat4x3", "mat4x4",
   "mediump", "namespace", "noinline", "noperspective", "out", "output", "packed", "partition",
   "patch", "precise", "precision", "public", "readonly", "resource", "restrict", "return",
   "sample", "sampler1D", "sampler2D", "sampler2DArray", "sampler2DShadow", "sampler3D",
   "samplerCube", "shared", "short", "sizeof", "smooth", "static", "struct", "subroutine",
   "superp", "switch", "template", "this", "true", "typedef", "uimage2D", "uint", "uniform",
   "union", "unsigned", "usampler2D", "usampler3D", "usamplerCube", "using", "uvec2", "uvec3",
   "uvec4", "varying", "vec2", "vec3", "vec4", "void", "volatile", "while", "writeonly"]

/-- The names of builtin functions, whether or not a program can call them. -/
def builtinFunctions : List String :=
  ["EmitStreamVertex", "EmitVertex", "EndPrimitive", "EndStreamPrimitive", "abs", "acos", "acosh",
   "all", "allInvocations", "allInvocationsEqual", "any", "anyInvocation", "asin", "asinh",
   "atan", "atanh", "atomicAdd", "atomicAnd", "atomicCompSwap", "atomicCounter",
   "atomicCounterAdd", "atomicCounterAnd", "atomicCounterCompSwap", "atomicCounterDecrement",
   "atomicCounterExchange", "atomicCounterIncrement", "atomicCounterMax", "atomicCounterMin",
   "atomicCounterOr", "atomicCounterSubtract", "atomicCounterXor", "atomicExchange", "atomicMax",
   "atomicMin", "atomicOr", "atomicXor", "barrier", "bitCount", "bitfieldExtract",
   "bitfieldInsert", "bitfieldReverse", "ceil", "clamp", "cos", "cosh", "cross", "dFdx",
   "dFdxCoarse", "dFdxFine", "dFdy", "dFdyCoarse", "dFdyFine", "degrees", "determinant",
   "distance", "dot", "equal", "exp", "exp2", "faceforward", "findLSB", "findMSB",
   "floatBitsToInt", "floatBitsToUint", "floor", "fma", "fract", "frexp", "ftransform", "fwidth",
   "fwidthCoarse", "fwidthFine", "greaterThan", "greaterThanEqual", "groupMemoryBarrier",
   "imageAtomicAdd", "imageAtomicAnd", "imageAtomicCompSwap", "imageAtomicExchange",
   "imageAtomicMax", "imageAtomicMin", "imageAtomicOr", "imageAtomicXor", "imageLoad",
   "imageSamples", "imageSize", "imageStore", "imulExtended", "intBitsToFloat",
   "interpolateAtCentroid", "interpolateAtOffset", "interpolateAtSample", "inverse",
   "inversesqrt", "isinf", "isnan", "ldexp", "length", "lessThan", "lessThanEqual", "log", "log2",
   "matrixCompMult", "max", "memoryBarrier", "memoryBarrierAtomicCounter", "memoryBarrierBuffer",
   "memoryBarrierImage", "memoryBarrierShared", "min", "mix", "mod", "modf", "noise1", "noise2",
   "noise3", "noise4", "normalize", "not", "notEqual", "outerProduct", "packDouble2x32",
   "packHalf2x16", "packSnorm2x16", "packSnorm4x8", "packUnorm2x16", "packUnorm4x8", "pow",
   "radians", "reflect", "refract", "round", "roundEven", "shadow1D", "shadow1DLod",
   "shadow1DProj", "shadow1DProjLod", "shadow2D", "shadow2DLod", "shadow2DProj",
   "shadow2DProjLod", "sign", "sin", "sinh", "smoothstep", "sqrt", "step", "tan", "tanh",
   "texelFetch", "texelFetchOffset", "texture", "texture1D", "texture1DLod", "texture1DProj",
   "texture1DProjLod", "texture2D", "texture2DGradEXT", "texture2DLod", "texture2DLodEXT",
   "texture2DProj", "texture2DProjGradEXT", "texture2DProjLod", "texture2DProjLodEXT",
   "texture3D", "texture3DLod", "texture3DProj", "texture3DProjLod", "textureCube",
   "textureCubeGradEXT", "textureCubeLod", "textureCubeLodEXT", "textureGather",
   "textureGatherOffset", "textureGatherOffsets", "textureGrad", "textureGradOffset",
   "textureLod", "textureLodOffset", "textureOffset", "textureProj", "textureProjGrad",
   "textureProjGradOffset", "textureProjLod", "textureProjLodOffset", "textureProjOffset",
   "textureQueryLevels", "textureQueryLod", "textureSamples", "textureSize", "transpose", "trunc",
   "uaddCarry", "uintBitsToFloat", "umulExtended", "unpackDouble2x32", "unpackHalf2x16",
   "unpackSnorm2x16", "unpackSnorm4x8", "unpackUnorm2x16", "unpackUnorm4x8", "usubBorrow"]

end ShaderDialects.Identifier
