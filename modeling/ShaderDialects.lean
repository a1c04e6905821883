import ShaderDialects.Builtin.Emulation
import ShaderDialects.Builtin.Form
import ShaderDialects.Builtin.Standard
import ShaderDialects.Builtin.Table
import ShaderDialects.Dialect.Literal
import ShaderDialects.Dialect.Spelling
import ShaderDialects.Dialect.Text
import ShaderDialects.Dialect.Traverse
import ShaderDialects.Dialect.Tree
import ShaderDialects.Dialect.Writer
import ShaderDialects.Identifier.Reserved
import ShaderDialects.Identifier.Supply
import ShaderDialects.Interface
import ShaderDialects.Leaf
import ShaderDialects.Legality.Construct
import ShaderDialects.Legality.Lowered
import ShaderDialects.Legality.Request
import ShaderDialects.Legality.Rule
import ShaderDialects.Literal
import ShaderDialects.Lowering.Declaration
import ShaderDialects.Lowering.Emit
import ShaderDialects.Lowering.Error
import ShaderDialects.Lowering.Expr
import ShaderDialects.Lowering.Shader
import ShaderDialects.Package.Compacted
import ShaderDialects.Package.Digest
import ShaderDialects.Package.Normal
import ShaderDialects.Package.Program
import ShaderDialects.Proofs.Builtin.Arithmetic
import ShaderDialects.Proofs.Builtin.Availability
import ShaderDialects.Proofs.Builtin.Closed
import ShaderDialects.Proofs.Builtin.Definitions
import ShaderDialects.Proofs.Builtin.Determinant
import ShaderDialects.Proofs.Builtin.Index
import ShaderDialects.Proofs.Dialect.Path
import ShaderDialects.Proofs.Dialect.Piece
import ShaderDialects.Proofs.Dialect.Quiet
import ShaderDialects.Proofs.Dialect.Writer
import ShaderDialects.Proofs.Except
import ShaderDialects.Proofs.Identifier.Agreement
import ShaderDialects.Proofs.Identifier.Fresh
import ShaderDialects.Proofs.Identifier.Interface
import ShaderDialects.Proofs.Identifier.Legal
import ShaderDialects.Proofs.Identifier.Search
import ShaderDialects.Proofs.Identifier.WireNames
import ShaderDialects.Proofs.Legality.Agreement
import ShaderDialects.Proofs.Legality.Construct
import ShaderDialects.Proofs.Legality.Declaration
import ShaderDialects.Proofs.Legality.Emulation
import ShaderDialects.Proofs.Legality.Expression
import ShaderDialects.Proofs.Legality.Interface
import ShaderDialects.Proofs.Legality.Lowered
import ShaderDialects.Proofs.Legality.Natives
import ShaderDialects.Proofs.Legality.Request
import ShaderDialects.Proofs.Legality.Samplers
import ShaderDialects.Proofs.Legality.Violations
import ShaderDialects.Proofs.Lowering.Context
import ShaderDialects.Proofs.Lowering.Declaration
import ShaderDialects.Proofs.Lowering.Declared
import ShaderDialects.Proofs.Lowering.Derivation
import ShaderDialects.Proofs.Lowering.Errors
import ShaderDialects.Proofs.Lowering.Faults
import ShaderDialects.Proofs.Lowering.Identifiers
import ShaderDialects.Proofs.Lowering.Lowerable
import ShaderDialects.Proofs.Lowering.Mirror
import ShaderDialects.Proofs.Lowering.Observation
import ShaderDialects.Proofs.Lowering.Outputs
import ShaderDialects.Proofs.Lowering.Paths
import ShaderDialects.Proofs.Lowering.Quiet
import ShaderDialects.Proofs.Lowering.Rebuilding
import ShaderDialects.Proofs.Lowering.Scope
import ShaderDialects.Proofs.Lowering.Shader
import ShaderDialects.Proofs.Lowering.Termination
import ShaderDialects.Proofs.Lowering.Totality
import ShaderDialects.Proofs.Lowering.Unbound
import ShaderDialects.Proofs.Lowering.Visibility
import ShaderDialects.Proofs.Lowering.WellScoped
import ShaderDialects.Proofs.Meaning.Declarations
import ShaderDialects.Proofs.Meaning.Evaluation
import ShaderDialects.Proofs.Meaning.Exact
import ShaderDialects.Proofs.Meaning.Execution
import ShaderDialects.Proofs.Meaning.Preservation
import ShaderDialects.Proofs.Meaning.Realized
import ShaderDialects.Proofs.Meaning.Simulation
import ShaderDialects.Proofs.Meaning.Soundness
import ShaderDialects.Proofs.Meaning.Uniforms
import ShaderDialects.Proofs.Meaning.Value
import ShaderDialects.Proofs.Meaning.Weakening
import ShaderDialects.Proofs.Package.Comments
import ShaderDialects.Proofs.Package.Compacted
import ShaderDialects.Proofs.Package.Lexer
import ShaderDialects.Proofs.Package.Linking
import ShaderDialects.Proofs.Package.Metadata
import ShaderDialects.Proofs.Package.Normal
import ShaderDialects.Proofs.Package.Program
import ShaderDialects.Proofs.Package.Sharing
import ShaderDialects.Proofs.Package.Stable
import ShaderDialects.Proofs.Reading.Expression
import ShaderDialects.Proofs.Reading.Grammar
import ShaderDialects.Proofs.Reading.Literal
import ShaderDialects.Proofs.Reading.Number
import ShaderDialects.Proofs.Reading.Rounding
import ShaderDialects.Proofs.Reading.Token
import ShaderDialects.Proofs.Source.Flattening
import ShaderDialects.Proofs.Source.FreeLocals
import ShaderDialects.Proofs.Source.Leaves
import ShaderDialects.Proofs.Source.Linearization
import ShaderDialects.Proofs.Source.Notes
import ShaderDialects.Proofs.Source.Order
import ShaderDialects.Proofs.Source.Reachability
import ShaderDialects.Proofs.Source.SamplerSearch
import ShaderDialects.Proofs.Source.Typing
import ShaderDialects.Proofs.Text.Lines
import ShaderDialects.Proofs.Text.Words
import ShaderDialects.Source.Closure
import ShaderDialects.Source.Expr
import ShaderDialects.Source.Program
import ShaderDialects.Source.Shader
import ShaderDialects.Source.Uniform
import ShaderDialects.Text.Blank
import ShaderDialects.Text.Buffer
import ShaderDialects.Text.Hidden
import ShaderDialects.Text.Lines
import ShaderDialects.Text.Quoted
import ShaderDialects.Text.Shortest
import ShaderDialects.Version.Basic
import ShaderDialects.Version.Set
