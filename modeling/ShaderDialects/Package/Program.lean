import ShaderDialects.Builtin.Standard
import ShaderDialects.Dialect.Text
import ShaderDialects.Legality.Lowered
import ShaderDialects.Legality.Request
import ShaderDialects.Lowering.Shader
import ShaderDialects.Package.Compacted

namespace ShaderDialects.Package

open Legality (Request)

structure Job where
  name : String
  program : Program
  vertex : Shader
  fragment : Shader

/-- A way to run a function on all elements of a list, on however many threads and in whatever order.
Each result stands at the place of its element. -/
structure Pool where
  run {α β : Type} (f : α → β) (xs : List α) : List β
  getElem?_run {α β : Type} (f : α → β) (xs : List α) (i : Nat) : (run f xs)[i]? = xs[i]?.map f

def Pool.sequential : Pool := ⟨List.map, fun _ _ _ => List.getElem?_map⟩

structure Options where
  config : Dialect.Config := {}
  table : Table := .standard
  /-- Whether lowered shaders are checked by the rules of their versions. -/
  verify : Bool := false
  /-- Whether cells and jobs are run in the pool. -/
  parallel : Bool := true
  pool : Pool := .sequential

def Options.each (options : Options) {α β : Type} (f : α → β) (xs : List α) : List β :=
  if options.parallel then options.pool.run f xs else xs.map f

/-- What a shader shows to the outside, which is the same in every version. -/
structure Metadata where
  name : String
  stage : Stage
  inputs : List Item
  outputs : List Item
  uniforms : List BoundUniform

structure PackagedShader (H : Type) where
  metadata : Metadata
  sources : Compacted H

structure Bundle (H : Type) where
  name : String
  versions : VersionSet
  vertex : PackagedShader H
  fragment : PackagedShader H

inductive Error where
  | closure (error : Closure.Error)
  | listing (error : Legality.ListingError)
  | legality (error : Legality.Error)
  | noCommonVersion (name : String) (vertex fragment : VersionSet)
  | lowering (error : Lowering.Error)
  | compact (error : CompactError)
  /-- The texts do not fall into one part for either shader. -/
  | miscounted (texts versions : Nat)

namespace Error

def message : Error → String
  | closure e => e.message
  | listing e => e.message
  | legality e => e.message
  | noCommonVersion name vertex fragment =>
      "shaders of program `" ++ name ++ "` have no version in common (vertex: " ++ vertex.text
        ++ ", fragment: " ++ fragment.text ++ ")"
  | lowering e => e.message
  | compact e => e.message
  | miscounted n m =>
      "internal error: entered unreachable code: rendered " ++ toString n ++ " texts for "
        ++ toString m ++ " versions"

/-- A fault of the program itself, which no caller can expect to handle. -/
def isFault : Error → Bool
  | closure (.fault _) => true
  | listing (.fault _) => true
  | lowering (.fault _) => true
  | compact (.repeatedVersion _ _) => true
  | miscounted _ _ => true
  | _ => false

end Error

def Metadata.ofShader (p : Program) (s : Shader) (table : Table) : Except Fault Metadata := do
  let interface ← Interface.ofShader p s table.nativeNames
  return ⟨s.name, s.stage, interface.inputs, interface.outputs, interface.uniforms⟩

/-- All values, or else an error: the first that is a fault, if there is one, and otherwise the
first. -/
def collect {α : Type} (results : List (Except Error α)) : Except Error (List α) :=
  match results.find? fun | .error e => e.isFault | .ok _ => false with
  | some (.error e) => .error e
  | _ => results.mapM id

def chunks {α : Type} (n : Nat) (xs : List α) : List (List α) :=
  if n = 0 ∨ xs = [] then [] else xs.take n :: chunks n (xs.drop n)
termination_by xs.length
decreasing_by
  rename_i h
  have hx := List.length_pos_iff.mpr (not_or.mp h).2
  rw [List.length_drop]
  omega

variable {H : Type} [DecidableEq H] (hash : ByteArray → H) (options : Options)

def supportedVersions (p : Program) (s : Shader) (closure : Closure) (request : Request) :
    Except Error VersionSet := do
  let constructs ← (Legality.constructs p options.table s closure).mapError .listing
  (Legality.resolve s.name constructs request).mapError .legality

def renderCell (p : Program) (s : Shader) (closure : Closure) (v : Version) :
    Except Error String := do
  let lowered ← (Lowering.lower p s closure v options.table).mapError .lowering
  if options.verify then
    (Legality.checkLowered options.table lowered).mapError .legality
  return lowered.text options.config

def packageShader (p : Program) (s : Shader) (versions : VersionSet) (texts : List String) :
    Except Error (PackagedShader H) := do
  let metadata ← (Metadata.ofShader p s options.table).mapError fun f => .lowering (.fault f)
  let cells := versions.toList.zipWith (fun v text => (v, Text.Source.ofString text)) texts
  let sources ← (Compacted.ofSources hash cells).mapError .compact
  return ⟨metadata, sources⟩

/-- Packages both shaders. Their texts come in one list, those of the vertex shader first, which is
cut into parts as long as the size of the versions. -/
def bundle (job : Job) (versions : VersionSet) (texts : List String) : Except Error (Bundle H) :=
  match chunks versions.size texts with
  | vertexTexts :: fragmentTexts :: _ => do
      let vertex ← packageShader hash options job.program job.vertex versions vertexTexts
      let fragment ← packageShader hash options job.program job.fragment versions fragmentTexts
      return ⟨job.name, versions, vertex, fragment⟩
  | _ => throw (.miscounted texts.length versions.size)

/-- Generates both shaders for every version that the request resolves to and both support. What
can be generated is decided for both before anything is lowered. -/
def compile (job : Job) (request : Request) : Except Error (Bundle H) := do
  let vertexClosure ← (Closure.ofShader job.program job.vertex).mapError .closure
  let fragmentClosure ← (Closure.ofShader job.program job.fragment).mapError .closure
  let ofVertex ← supportedVersions options job.program job.vertex vertexClosure request
  let ofFragment ← supportedVersions options job.program job.fragment fragmentClosure request
  let versions := ofVertex.inter ofFragment
  if versions.isEmpty then
    throw (.noCommonVersion job.name ofVertex ofFragment)
  let cells := versions.toList.map (job.vertex, vertexClosure, ·)
    ++ versions.toList.map (job.fragment, fragmentClosure, ·)
  let texts ← collect (options.each
    (fun (s, closure, v) => renderCell options job.program s closure v) cells)
  bundle hash options job versions texts

def compileAll (jobs : List Job) (request : Request) : Except Error (List (Bundle H)) :=
  collect (options.each (fun job => compile hash options job request) jobs)

end ShaderDialects.Package
