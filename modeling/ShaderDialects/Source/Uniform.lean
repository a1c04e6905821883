import ShaderDialects.Source.Program

namespace ShaderDialects

structure Uniform where
  name : String
  leaf : Leaf
  path : List Nat

namespace Program

variable (p : Program)

/-- The leaves below `path`, depth first and in field order. A record nested deeper than `depth`
records is refused. -/
def flattenWithin (depth : Nat) (name : String) (path : List Nat) :
    Ty → Except Fault (List Uniform)
  | .leaf t => .ok [⟨name, t, path⟩]
  | .record i => do
      let r ← p.record i
      match depth with
      | 0 => .error (.endless i)
      | depth + 1 => do
          let parts ← r.fields.zipIdx.mapM fun (f, k) =>
            flattenWithin depth (name ++ "." ++ f.name) (path ++ [k]) f.ty
          return parts.flatten
termination_by structural depth

/-- The uniforms of a parameter. Records that do not hold themselves are nested no deeper than
there are records. -/
def flatten (name : String) (ty : Ty) : Except Fault (List Uniform) :=
  p.flattenWithin p.records.length name [] ty

def holdsSamplerWithin (depth : Nat) : Ty → Except Fault Bool
  | .leaf t => .ok t.isSampler
  | .record i => do
      let r ← p.record i
      match depth with
      | 0 => .error (.endless i)
      | depth + 1 => r.fields.anyM fun f => holdsSamplerWithin depth f.ty
termination_by structural depth

/-- Whether a value of the type has a sampler in it. No record constructor exists for such a
type, so it can only be present as flattened uniforms. -/
def holdsSampler (ty : Ty) : Except Fault Bool := p.holdsSamplerWithin p.records.length ty

end Program

end ShaderDialects
