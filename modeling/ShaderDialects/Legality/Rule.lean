import ShaderDialects.Builtin.Form

namespace ShaderDialects.Legality

open Dialect (Sink)

inductive Objection where
  | unsignedInteger
  | nonSquareMatrix
  | booleanInterface
  | samplerInterface
  | integerInterface
  | attachmentNotZero
  | colorNotVec4
  | depthNotFloat
  | noDepth
  | positionNotVec4
  | recordInput
  | recordOutput
  | vertexTarget
  | fragmentTarget
  | onePosition
  | vertexDiscard
  | samplerRecord
  | externalUnavailable
  | colorSinkRemoved
  | storageRemoved
  | storageMissing
  | locationMissing
  | notFlat
  | builtinUnavailable
  deriving DecidableEq

def Objection.text : Objection → String
  | unsignedInteger => "unsigned integers need GLSL ES 3.00 or GLSL 1.30"
  | nonSquareMatrix => "non-square matrices need GLSL ES 3.00 or GLSL 1.20"
  | booleanInterface => "inputs and outputs cannot be booleans"
  | samplerInterface => "inputs and outputs cannot be samplers"
  | integerInterface => "integer inputs and varyings need GLSL ES 3.00 or GLSL 1.30"
  | attachmentNotZero => "GLSL ES 1.00 only has color attachment 0"
  | colorNotVec4 => "color outputs must be vec4 before GLSL ES 3.00 and GLSL 1.30"
  | depthNotFloat => "depth outputs must be float"
  | noDepth => "GLSL ES 1.00 has no depth output"
  | positionNotVec4 => "the position output must be vec4"
  | recordInput => "inputs cannot be records"
  | recordOutput => "outputs cannot be records"
  | vertexTarget => "vertex shaders only output varyings and a position"
  | fragmentTarget => "fragment shaders only output attachments and depth"
  | onePosition => "vertex shaders need exactly one position output"
  | vertexDiscard => "vertex shaders cannot discard"
  | samplerRecord => "records holding samplers cannot be constructed"
  | externalUnavailable => "the external is not available for this version and stage"
  | colorSinkRemoved =>
      "`gl_FragColor` and `gl_FragData` were removed in GLSL ES 3.00 and GLSL 1.30"
  | storageRemoved => "`attribute` and `varying` were removed in GLSL ES 3.00 and GLSL 1.30"
  | storageMissing => "`in` and `out` variables need GLSL ES 3.00 or GLSL 1.30"
  | locationMissing => "output locations need GLSL ES 3.00 or GLSL 3.30"
  | notFlat => "integer varyings must be flat"
  | builtinUnavailable => "the builtin is not available for this version and stage"

inductive Subject where
  | input (name : String)
  | output (name : String)
  | positionOutput
  | discard
  | external (symbol : String)
  | type (leaf : Leaf)
  | construction (record : String)
  | uniform (name : String)
  | write (sink : Sink)
  | unsignedLiteral
  | native (form : Form)
  deriving DecidableEq

def describeSink : Sink → String
  | .var name => "Variable(" ++ Text.quoted name ++ ")"
  | .position => "Position"
  | .fragColor => "FragColor"
  | .fragData n => "FragData(" ++ toString n ++ ")"
  | .fragDepth => "FragDepth"

def Subject.describe : Subject → String
  | input name => "input `" ++ name ++ "`"
  | output name => "output `" ++ name ++ "`"
  | positionOutput => "position output"
  | discard => "discard"
  | external symbol => "external `" ++ symbol ++ "`"
  | type leaf => "type " ++ leaf.name
  | construction record => "construction of record `" ++ record ++ "`"
  | uniform name => "uniform `" ++ name ++ "`"
  | write sink => "write to " ++ describeSink sink
  | unsignedLiteral => "unsigned literal"
  | native form => form.describe

def leafRule (t : Leaf) (v : Version) : Option Objection :=
  if t.isUnsigned && !v.isSince .v300 .v130 then some .unsignedInteger
  else if t.isNonSquare && !v.isSince .v300 .v120 then some .nonSquareMatrix
  else none

/-- The objection of all versions to a leaf type as that of an input or output. -/
def interfaceRule (t : Leaf) : Option Objection :=
  if t.isBoolean then some .booleanInterface
  else if t.isSampler then some .samplerInterface
  else none

def integerRule (t : Leaf) (v : Version) : Option Objection :=
  if t.isInteger && v.isLegacy then some .integerInterface else none

def attachmentRule (index : Nat) (t : Leaf) (v : Version) : Option Objection :=
  if index ≠ 0 ∧ v = .embedded .v100 then some .attachmentNotZero
  else if v.isLegacy ∧ t ≠ .vec4 then some .colorNotVec4
  else none

def depthRule (t : Leaf) (v : Version) : Option Objection :=
  if t ≠ .float then some .depthNotFloat
  else if v = .embedded .v100 then some .noDepth
  else none

def positionRule (t : Leaf) : Option Objection :=
  if t ≠ .vec4 then some .positionNotVec4 else none

def colorSinkRule (v : Version) : Option Objection :=
  if v.isLegacy then none else some .colorSinkRemoved

inductive Error where
  | unsupported (shader : String) (version : Version) (subject : Subject)
      (objection : Option Objection)
  | noSupportedVersion (shader : String) (family : Family)

def objectionText (o : Option Objection) : String := (o.map Objection.text).getD ""

def Error.message : Error → String
  | unsupported shader v subject objection =>
      "shader `" ++ shader ++ "` cannot be generated for " ++ v.name ++ ": " ++ subject.describe
        ++ ": " ++ objectionText objection
  | noSupportedVersion shader family =>
      "shader `" ++ shader ++ "` supports no requested " ++ family.name ++ " version"

end ShaderDialects.Legality
