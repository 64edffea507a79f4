import Straightline.Code.Builder
import Straightline.Code.Function
import Straightline.Code.Instr
import Straightline.Code.Ty
import Straightline.Code.Value
import Straightline.Code.Verify
import Straightline.Command
import Straightline.Command.Build
import Straightline.Command.Files
import Straightline.Command.Options
import Straightline.Command.Path
import Straightline.DataType
import Straightline.Fault
import Straightline.Lowering
import Straightline.Lowering.Error
import Straightline.Main
import Straightline.Operator
import Straightline.Optimize.DeadCode
import Straightline.Optimize.Fold
import Straightline.Optimize.Pipeline
import Straightline.Position
import Straightline.Proofs.Build
import Straightline.Proofs.Code.Sound
import Straightline.Proofs.Code.Verify
import Straightline.Proofs.Execution
import Straightline.Proofs.Lowering.Errors
import Straightline.Proofs.Lowering.Modules
import Straightline.Proofs.Lowering.Rules
import Straightline.Proofs.Lowering.Simulation
import Straightline.Proofs.Lowering.Sound
import Straightline.Proofs.Meaning
import Straightline.Proofs.Optimize.Passes
import Straightline.Proofs.Optimize.Runs
import Straightline.Proofs.Optimize.Sound
import Straightline.Proofs.Optimize.Traps
import Straightline.Proofs.Target.Emission
import Straightline.Proofs.Tree.WellFormed
import Straightline.Proofs.Typing
import Straightline.Scope
import Straightline.Target
import Straightline.Target.Emit
import Straightline.Target.Literal
import Straightline.Target.Module
import Straightline.Target.Printer
import Straightline.Text.Decimal
import Straightline.Text.Hex
import Straightline.Text.Printable
import Straightline.Text.Quoted
import Straightline.Text.Rune
import Straightline.Token
import Straightline.Token.Lexer
import Straightline.Tree
import Straightline.Tree.Comb
import Straightline.Tree.Outline
import Straightline.Tree.ParseError
import Straightline.Tree.Parser
import Straightline.Workbench
import Straightline.Workbench.Step
import Straightline.Proofs.Text.Decoding
import Straightline.Proofs.Token.Munch
import Straightline.Proofs.Token.Stream
import Straightline.Proofs.Grammar
import Straightline.Proofs.Tree.Comb
import Straightline.Proofs.Tree.Infix
import Straightline.Proofs.Tree.Derivation
import Straightline.Proofs.Target.Translation
import Straightline.Proofs.Target.Written
import Straightline.Proofs.Tree.Boundary
import Straightline.Proofs.Lowering.Naming
import Straightline.Proofs.Optimize.Remains
import Straightline.Proofs.Target.Symbols
import Straightline.Proofs.Target.Spelling
import Straightline.Proofs.Tree.Names
import Straightline.Proofs.Tree.Fetching
import Straightline.Proofs.Tree.ErrorOrder
import Straightline.Proofs.Tree.Lines
import Straightline.Proofs.Tree.Inventory
import Straightline.Proofs.Code.Renumbering
import Straightline.Proofs.Lowering.Linking
import Straightline.Proofs.Lowering.Independence
import Straightline.Proofs.Lowering.Pruning
import Straightline.Proofs.Lowering.Leftovers
import Straightline.Proofs.Optimize.Settled
import Straightline.Proofs.Command.Arguments
import Straightline.Proofs.Token.Placement
import Straightline.Proofs.Command.Conduct
import Straightline.Proofs.Optimize.Balance
import Straightline.Proofs.Optimize.Harmless
import Straightline.Proofs.Tree.Folding
import Straightline.Proofs.Target.Rewriting
import Straightline.Proofs.Workbench
import Straightline.Proofs.Target.Globals
import Straightline.Proofs.Literals
import Straightline.Proofs.Code.Types
import Straightline.Proofs.Command.Files
import Straightline.Proofs.Command.Overwriting
import Straightline.Proofs.Code.Temporaries
import Straightline.Proofs.Text.Codes
import Straightline.Proofs.Tree.Outline
