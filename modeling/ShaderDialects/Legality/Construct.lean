import ShaderDialects.Builtin.Table
import ShaderDialects.Legality.Rule
import ShaderDialects.Source.Closure
import ShaderDialects.Source.Uniform

namespace ShaderDialects

namespace Expr

mutual

/-- The expression and those inside it of which a value is made. A chain of field accesses on a
parameter reads uniforms, so what is inside it is left out. -/
def wholes : Expr → List Expr
  | literal n v => [literal n v]
  | bound n i => [bound n i]
  | term n t => [term n t]
  | input n i => [input n i]
  | parameter n i => [parameter n i]
  | apply n f args => apply n f args :: wholesOf args
  | cond n c a r => cond n c a r :: (wholes c ++ wholes a ++ wholes r)
  | bind n b value body => bind n b value body :: (wholes value ++ wholes body)
  | construct n r fields => construct n r fields :: wholesOf fields
  | field n base i =>
      field n base i :: if (field n base i).parameterPath?.isSome then [] else wholes base
  | swizzle n base s => swizzle n base s :: wholes base

def wholesOf : List Expr → List Expr
  | [] => []
  | e :: es => wholes e ++ wholesOf es

end

end Expr

namespace Legality

structure Construct where
  subject : Subject
  span : Span
  versions : VersionSet
  /-- The objection of the first version that rejects it, if one does. -/
  objection : Option Objection

namespace Construct

/-- Asks every version on its own. -/
def ofRule (subject : Subject) (span : Span) (rule : Version → Option Objection) : Construct :=
  ⟨subject, span, .ofPredicate fun v => (rule v).isNone, Version.all.findSome? rule⟩

def never (subject : Subject) (span : Span) (o : Objection) : Construct :=
  ⟨subject, span, .empty, some o⟩

def ofLeaf (use : Leaf × Span) : Construct := ofRule (.type use.1) use.2 (leafRule use.1)

def ofInput (input : Slot) : Construct :=
  match input.ty with
  | .leaf t => ofRule (.input input.name) input.span fun v => interfaceRule t <|> integerRule t v
  | .record _ => never (.input input.name) input.span .recordInput

def ofOutput (stage : Stage) (output : Output) : Construct :=
  let subject := Subject.output output.name
  match output.ty with
  | .record _ => never subject output.span .recordOutput
  | .leaf t =>
      match stage, output.target with
      | .vertex, .varying =>
          ofRule subject output.span fun v => interfaceRule t <|> integerRule t v
      | .vertex, .position => ofRule subject output.span fun _ => positionRule t
      | .fragment, .attachment n =>
          ofRule subject output.span fun v => interfaceRule t <|> attachmentRule n t v
      | .fragment, .depth => ofRule subject output.span (depthRule t)
      | .vertex, _ => never subject output.span .vertexTarget
      | .fragment, _ => never subject output.span .fragmentTarget

/-- Position outputs that are not records. -/
def leafPositions (s : Shader) : Nat :=
  s.outputs.countP fun o => o.target = .position ∧ o.ty.leaf?.isSome

/-- A vertex shader has one position and discards nothing. -/
def ofVertexRules (s : Shader) : List Construct :=
  (if leafPositions s = 1 then [] else [never .positionOutput s.span .onePosition])
    ++ s.steps.filterMap fun
      | .discard _ span => some (never .discard span .vertexDiscard)
      | .bind _ _ => none

def ofInterface (s : Shader) : List Construct :=
  s.inputs.map ofInput ++ s.outputs.map (ofOutput s.stage)
    ++ if s.stage = .vertex then ofVertexRules s else []

def ofExternal (t : Term) (symbol : String) (versions : VersionSet) : Construct :=
  ⟨.external symbol, t.span, versions,
    if versions = .universal then none else some .externalUnavailable⟩

end Construct

abbrev Uses := List (Leaf × Span)

def usesOfTy (span : Span) (ty : Ty) : Uses := ty.leaf?.toList.map fun t => (t, span)

def usesOfNode (e : Expr) : Uses :=
  usesOfTy e.span e.ty ++ match e with
    | .bind _ b _ _ => usesOfTy e.span b.ty
    | _ => []

def usesOfExpr (e : Expr) : Uses := e.nodes.flatMap usesOfNode

def firstUses (uses : Uses) : Uses :=
  uses.foldl (fun kept use => if kept.any (fun k => k.1 = use.1) then kept else kept ++ [use]) []

/-- What makes a record out of its fields: a record expression, or a parameter read whole. -/
def builtRecord? (e : Expr) : Option Nat :=
  match e, e.ty with
  | .construct _ _ _, .record i => some i
  | _, .record i => if e.parameterPath?.isSome then some i else none
  | _, .leaf _ => none

/-- What a part of a program contributes to the constructs of a shader. -/
structure Findings where
  externals : List Construct := []
  uses : Uses := []
  samplers : List Construct := []

namespace Findings

def append (f g : Findings) : Findings :=
  ⟨f.externals ++ g.externals, f.uses ++ g.uses, f.samplers ++ g.samplers⟩

def join (fs : List Findings) : Findings := fs.foldr append {}

end Findings

inductive ListingError where
  | builtin (error : BuiltinError)
  | fault (fault : Fault)

def ListingError.message : ListingError → String
  | builtin e => e.message
  | fault f => f.message

variable (p : Program) (table : Table)

/-- The objection to a node which builds a record that holds a sampler. -/
def samplerConstruct? (e : Expr) : Except Fault (Option Construct) := do
  match builtRecord? e with
  | none => return none
  | some i =>
      if ← p.holdsSampler (.record i) then
        let r ← p.record i
        return some (.never (.construction r.name) e.span .samplerRecord)
      else return none

def samplerConstructs (e : Expr) : Except Fault (List Construct) := do
  let found ← e.wholes.mapM (samplerConstruct? p)
  return found.filterMap id

def findingsOfParameter (q : Slot) : Except Fault Findings := do
  let uniforms ← p.flatten q.name q.ty
  return { uses := uniforms.map fun u => (u.leaf, q.span) }

def findingsOfExpr (e : Expr) : Except Fault Findings := do
  return { uses := usesOfExpr e, samplers := ← samplerConstructs p e }

def findingsOfTerm (stage : Stage) (t : Term) : Except ListingError Findings := do
  match t.kind with
  | .function params result body =>
      let signature : Findings :=
        { uses := params.flatMap (fun b => usesOfTy t.span b.ty) ++ usesOfTy t.span result }
      let body ← (findingsOfExpr p body).mapError .fault
      return signature.append body
  | .value ty body =>
      let body ← (findingsOfExpr p body).mapError .fault
      return Findings.append { uses := usesOfTy t.span ty } body
  | .external symbol signature =>
      let versions ← (table.availability symbol signature.kind stage).mapError .builtin
      return {
        externals := [.ofExternal t symbol versions]
        uses := signature.leaves.map fun leaf => (leaf, t.span) }

def findingsOfDecl (stage : Stage) : DeclId → Except ListingError Findings
  | .record i => do
      let r ← (p.record i).mapError ListingError.fault
      return { uses := r.fields.flatMap fun f => usesOfTy r.span f.ty }
  | .term i => do
      let t ← (p.term i).mapError ListingError.fault
      findingsOfTerm p table stage t

/-- All constructs of a shader: those of its interface, the externals in the order of the closure,
the leaf types in the order of their first use, and the records that hold samplers. -/
def constructs (s : Shader) (closure : Closure) : Except ListingError (List Construct) := do
  let ofParameters ← (s.parameters.mapM (findingsOfParameter p)).mapError .fault
  let ofBody ← (s.exprs.mapM (findingsOfExpr p)).mapError .fault
  let ofDecls ← closure.order.mapM (findingsOfDecl p table s.stage)
  let found := Findings.join (ofParameters ++ ofBody ++ ofDecls)
  return Construct.ofInterface s ++ found.externals ++ (firstUses found.uses).map Construct.ofLeaf
    ++ found.samplers

def supported (cs : List Construct) : VersionSet :=
  cs.foldl (fun s c => s.inter c.versions) .universal

def maximal (s : Shader) (closure : Closure) : Except ListingError VersionSet :=
  (constructs p table s closure).map supported

end Legality

end ShaderDialects
