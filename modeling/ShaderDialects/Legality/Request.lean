import ShaderDialects.Legality.Construct

namespace ShaderDialects.Legality

inductive FamilyRequest (S : Type) where
  /-- These versions, each of which has to be supported. -/
  | exactly (versions : S)
  /-- Those of these versions that are supported, at least one. -/
  | anyOf (versions : S)
  /-- All supported versions, at least one. -/
  | maximal
  | skip

def FamilyRequest.map {S T : Type} (f : S → T) : FamilyRequest S → FamilyRequest T
  | exactly s => .exactly (f s)
  | anyOf s => .anyOf (f s)
  | maximal => .maximal
  | skip => .skip

structure Request where
  full : FamilyRequest FullSet := .maximal
  embedded : FamilyRequest EmbeddedSet := .maximal

namespace Request

/-- Exactly the given versions, and all supported ones of a family that none is given of. -/
def exactlyOrMaximal (s : VersionSet) : Request where
  full := if s.full = 0 then .maximal else .exactly s.full
  embedded := if s.embedded = 0 then .maximal else .exactly s.embedded

end Request

/-- The first of the versions that some construct rejects, with the first such construct. -/
def firstRejected? (cs : List Construct) (vs : List Version) : Option (Version × Construct) :=
  vs.findSome? fun v => (cs.find? fun c => !c.versions.contains v).map fun c => (v, c)

def nonempty (shader : String) (family : Family) (s : VersionSet) : Except Error VersionSet :=
  if s.isEmpty then .error (.noSupportedVersion shader family) else .ok s

def resolveFamily (shader : String) (cs : List Construct) (family : Family) :
    FamilyRequest VersionSet → Except Error VersionSet
  | .exactly s =>
      match firstRejected? cs s.toList with
      | some (v, c) => .error (.unsupported shader v c.subject c.objection)
      | none => .ok s
  | .anyOf s => nonempty shader family (s.inter (supported cs))
  | .maximal => nonempty shader family ((supported cs).inter (.ofFamily family))
  | .skip => .ok .empty

/-- The versions to generate for a request, given the constructs of the shader. Desktop versions
are looked at first. -/
def resolve (shader : String) (cs : List Construct) (request : Request) :
    Except Error VersionSet := do
  let full ← resolveFamily shader cs .full (request.full.map fun s => ⟨s, 0⟩)
  let embedded ← resolveFamily shader cs .embedded (request.embedded.map fun s => ⟨0, s⟩)
  return full.union embedded

end ShaderDialects.Legality
