import ShaderDialects.Builtin.Table

namespace ShaderDialects.Lowering

inductive Malformation where
  | unboundLocal (id : Nat)
  | undeclaredInput (index : Nat)
  | undeclaredOutput (index : Nat)
  | noUniform (parameter : Nat) (path : List Nat)
  | samplerRecord (name : String)
  | notRecord
  | noField (index : Nat)
  | functionAsValue (name : String)
  | valueApplied (name : String)
  | arity (name : String) (expected actual : Nat)
  | vertexDiscard
  | recordInput (name : String)
  | recordOutput (name : String)
  | positions (count : Nat)
  | wrongTarget (output : String) (target : Target) (stage : Stage)

def pathText (path : List Nat) : String :=
  "[" ++ String.intercalate ", " (path.map toString) ++ "]"

def Malformation.message : Malformation → String
  | unboundLocal id => "unbound local " ++ toString id
  | undeclaredInput i => "reference to undeclared input " ++ toString i
  | undeclaredOutput i => "assignment to undeclared output " ++ toString i
  | noUniform parameter path =>
      "no uniform for parameter " ++ toString parameter ++ " at path " ++ pathText path
  | samplerRecord name => "record `" ++ name ++ "` holds a sampler and cannot be constructed"
  | notRecord => "field access on a value which is not a record"
  | noField i => "record has no field " ++ toString i
  | functionAsValue name => "function `" ++ name ++ "` used as a value"
  | valueApplied name => "value `" ++ name ++ "` applied to arguments"
  | arity name expected actual =>
      "`" ++ name ++ "` takes " ++ toString expected ++ " arguments, applied to " ++ toString actual
  | vertexDiscard => "vertex shaders cannot discard"
  | recordInput name => "input `" ++ name ++ "` has a record type"
  | recordOutput name => "output `" ++ name ++ "` has a record type"
  | positions n => "vertex shaders need exactly one position output, found " ++ toString n
  | wrongTarget output target stage =>
      "output `" ++ output ++ "` targets " ++ target.describe ++ ", which " ++ stage.name
        ++ " shaders do not have"

inductive Error where
  | builtin (error : BuiltinError)
  | undeclared (name : String)
  | malformed (shader : String) (reason : Malformation)
  | fault (fault : Fault)

def Error.message : Error → String
  | builtin e => e.message
  | undeclared name => "`" ++ name ++ "` is used before it is declared"
  | malformed shader reason => "shader `" ++ shader ++ "` is malformed: " ++ reason.message
  | fault f => f.message

end ShaderDialects.Lowering
