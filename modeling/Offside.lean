import Offside.Main
import Offside.Proofs.Forest.Histories
import Offside.Proofs.Forest.Transformation
import Offside.Proofs.Binding.Compilation
import Offside.Proofs.Block.Matching
import Offside.Proofs.Block.Outline
import Offside.Proofs.Block.Columns
import Offside.Proofs.Lowering.Delivery
import Offside.Proofs.Lowering.Capture
import Offside.Proofs.Lowering.Visibility
import Offside.Proofs.Arrangement.Source
import Offside.Proofs.Lowering.Redeclaration
import Offside.Proofs.Macro.Freshness
import Offside.Proofs.Combination.Precedence
import Offside.Proofs.Scanning.Strings
import Offside.Proofs.Scanning.Returns
import Offside.Proofs.Scanning.Coverage
import Offside.Proofs.Macro.Substitution
import Offside.Proofs.Combination.Clauses
import Offside.Proofs.Combination.Lexical
import Offside.Proofs.Lowering.Success.Compilation
import Offside.Proofs.Lowering.Receivers
import Offside.Proofs.Lowering.Purity
import Offside.Proofs.Lowering.Departure
import Offside.Proofs.Locations
import Offside.Proofs.Binding.Layers
import Offside.Proofs.Lowering.Relocation
