import Shading.Value.Literal
import Shading.Ty.Operation
import Shading.Ty.Swizzle
import Shading.Compile
import Shading.Dialect.Plain
import Shading.Log
import Shading.Bindings
import Shading.Main
import Shading.Files.Memory
import Shading.Proofs.Evaluation
import Shading.Proofs.Outcome
import Shading.Proofs.Folding
import Shading.Proofs.Opening
import Shading.Proofs.Uses
import Shading.Proofs.Resolution
import Shading.Proofs.Dependencies
import Shading.Proofs.Items
import Shading.Proofs.DeclarationOrder
import Shading.Proofs.StageInterface
import Shading.Proofs.Rearrangement
import Shading.Proofs.Grammar
import Shading.Proofs.Grammar.Soundness
import Shading.Proofs.Grammar.Completeness
import Shading.Proofs.Grammar.Shaders
import Shading.Proofs.Scoping
import Shading.Proofs.NormalForm
import Shading.Proofs.Lexing
import Shading.Proofs.Lexing.Layout
import Shading.Proofs.Literals
import Shading.Proofs.ArrayLengths
import Shading.Proofs.Declarators
import Shading.Proofs.Execution
import Shading.Proofs.Locals
import Shading.Proofs.Origins
import Shading.Proofs.Pruning
import Shading.Proofs.References
import Shading.Proofs.Methods
import Shading.Proofs.Unrolling
import Shading.Proofs.Cycles
import Shading.Proofs.StageRules
import Shading.Proofs.Definitions
import Shading.Proofs.Watching
import Shading.Proofs.Alarms
import Shading.Proofs.Parentheses
import Shading.Proofs.Safety
import Shading.Proofs.Recovery
import Shading.Proofs.Nesting
import Shading.Proofs.Naming
import Shading.Proofs.Capture
import Shading.Proofs.Diagnostics
import Shading.Proofs.Extension
import Shading.Proofs.Assignments
import Shading.Proofs.Grouping
import Shading.Proofs.Carriers
import Shading.Proofs.Loops
import Shading.Proofs.Updates
import Shading.Proofs.Unions
import Shading.Proofs.Outputs
import Shading.Proofs.BindingFiles
import Shading.Proofs.Versions
import Shading.Proofs.Constants
import Shading.Proofs.Lexing.Ends
import Shading.Proofs.Outputs.Paths
