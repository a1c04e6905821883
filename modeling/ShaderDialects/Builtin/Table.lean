import ShaderDialects.Builtin.Emulation
import ShaderDialects.Builtin.Form
import ShaderDialects.Version.Set

namespace ShaderDialects

structure StageSet where
  vertex : Bool
  fragment : Bool
  deriving DecidableEq

namespace StageSet

def both : StageSet := ⟨true, true⟩

def contains (s : StageSet) : Stage → Bool
  | .vertex => s.vertex
  | .fragment => s.fragment

def ofList (stages : List Stage) : StageSet := ⟨stages.contains .vertex, stages.contains .fragment⟩

/-- The set as a number: one for the vertex stage plus two for the fragment stage. -/
def bits (s : StageSet) : Nat := s.vertex.toNat + 2 * s.fragment.toNat

end StageSet

inductive Decision where
  | native (form : Form)
  | emulated (emulation : Emulation)

instance (d : Decision) (form : Form) : Decidable (d = .native form) :=
  match d with
  | .native f => decidable_of_iff (f = form) ⟨congrArg Decision.native, Decision.native.inj⟩
  | .emulated _ => isFalse nofun

structure Rule where
  versions : VersionSet
  stages : StageSet := .both
  decision : Decision

namespace Rule

def covers (r : Rule) (v : Version) (stage : Stage) : Bool :=
  r.stages.contains stage && r.versions.contains v

def form? (r : Rule) : Option Form :=
  match r.decision with
  | .native form => some form
  | .emulated _ => none

end Rule

/-- All that is known of one external. The first rule that covers a version and stage decides. -/
structure Definition where
  kind : ExternalKind
  symbol : String
  rules : List Rule

inductive BuiltinError where
  | unknown (symbol : String) (kind : ExternalKind)
  | unavailable (symbol : String) (version : Version) (stage : Stage)

def BuiltinError.message : BuiltinError → String
  | unknown symbol kind =>
      "external " ++ kind.name ++ " `" ++ symbol ++ "` is not supported by this backend"
  | unavailable symbol v stage =>
      "external `" ++ symbol ++ "` is not available in " ++ stage.name ++ " shaders for " ++ v.name

inductive DefinitionError where
  | functionAsVariable
  | valueAsCall

def DefinitionError.message : DefinitionError → String
  | functionAsVariable => "external functions cannot be native variables"
  | valueAsCall => "external values must be native variables or emulated"

/-- A function is never a native variable, and a value is never anything else that is native. -/
def Definition.check (d : Definition) : Except DefinitionError Unit :=
  match d.kind with
  | .function =>
      if (d.rules.filterMap Rule.form?).any Form.isVariable then .error .functionAsVariable
      else .ok ()
  | .value =>
      if (d.rules.filterMap Rule.form?).all Form.isVariable then .ok () else .error .valueAsCall

structure StageVersions where
  vertex : VersionSet := .empty
  fragment : VersionSet := .empty

namespace StageVersions

def get (vs : StageVersions) : Stage → VersionSet
  | .vertex => vs.vertex
  | .fragment => vs.fragment

def add (vs : StageVersions) (r : Rule) : StageVersions where
  vertex := if r.stages.vertex then vs.vertex.union r.versions else vs.vertex
  fragment := if r.stages.fragment then vs.fragment.union r.versions else vs.fragment

end StageVersions

abbrev NativeIndex := List (Form × StageVersions)

namespace NativeIndex

/-- Adds the versions of a rule to the entry of the form, which is made if there is none. -/
def enter (form : Form) (r : Rule) : NativeIndex → NativeIndex
  | [] => [(form, StageVersions.add {} r)]
  | (f, vs) :: index => if f = form then (f, vs.add r) :: index else (f, vs) :: enter form r index

def addRule (index : NativeIndex) (r : Rule) : NativeIndex :=
  match r.decision with
  | .native form => index.enter form r
  | .emulated _ => index

def ofDefinitions (ds : List Definition) : NativeIndex :=
  ds.foldl (fun index d => d.rules.foldl addRule index) []

def find (index : NativeIndex) (form : Form) (stage : Stage) : VersionSet :=
  match index.lookup form with
  | some vs => vs.get stage
  | none => .empty

def insertName (name : String) : List String → List String
  | [] => [name]
  | n :: ns =>
      if name = n then n :: ns
      else if name < n then name :: n :: ns
      else n :: insertName name ns

def names (index : NativeIndex) : List String :=
  (index.filterMap fun entry => entry.1.name?).foldr insertName []

end NativeIndex

structure TableBuilder where
  definitions : List Definition := []

/-- A table has an index of the native forms in its definitions, made when it was built. -/
structure Table where
  definitions : List Definition
  natives : NativeIndex
  nativeNames : List String
  natives_eq : natives = .ofDefinitions definitions
  nativeNames_eq : nativeNames = natives.names

namespace TableBuilder

/-- Adds a definition in place of any other of the same symbol and kind. -/
def define (b : TableBuilder) (d : Definition) : Except DefinitionError TableBuilder := do
  d.check
  return ⟨d :: b.definitions.filter fun e => e.symbol ≠ d.symbol ∨ e.kind ≠ d.kind⟩

def build (b : TableBuilder) : Table :=
  let natives := NativeIndex.ofDefinitions b.definitions
  ⟨b.definitions, natives, natives.names, rfl, rfl⟩

end TableBuilder

namespace Table

def empty : Table := TableBuilder.build {}

def ofDefinitions (ds : List Definition) : Except DefinitionError Table :=
  (ds.foldlM TableBuilder.define {}).map TableBuilder.build

variable (t : Table)

def find? (symbol : String) (kind : ExternalKind) : Option Definition :=
  t.definitions.find? fun d => d.symbol = symbol ∧ d.kind = kind

def require (symbol : String) (kind : ExternalKind) : Except BuiltinError Definition :=
  match t.find? symbol kind with
  | some d => .ok d
  | none => .error (.unknown symbol kind)

def resolve (symbol : String) (kind : ExternalKind) (v : Version) (stage : Stage) :
    Except BuiltinError Decision := do
  let d ← t.require symbol kind
  match d.rules.find? fun r => r.covers v stage with
  | some r => .ok r.decision
  | none => .error (.unavailable symbol v stage)

def availability (symbol : String) (kind : ExternalKind) (stage : Stage) :
    Except BuiltinError VersionSet := do
  let d ← t.require symbol kind
  let rules := d.rules.filter fun r => r.stages.contains stage
  return rules.foldl (fun s r => s.union r.versions) .empty

/-- The versions in which generated code may contain the form, since some rule lowers to it. -/
def nativeAvailability (form : Form) (stage : Stage) : VersionSet := t.natives.find form stage

end Table

end ShaderDialects
