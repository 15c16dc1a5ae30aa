import Formula.Main
import Formula.Workspace
import Formula.Proofs.Grammar
import Formula.Proofs.Outcome
import Formula.Proofs.Precedence.Row
import Formula.Proofs.Height
import Formula.Proofs.Precedence.Assembling
import Formula.Proofs.Precedence.Arranging
import Formula.Proofs.Collapse.Splitting
import Formula.Proofs.Collapse.Collapsed
import Formula.Proofs.Collapse.Calls
import Formula.Proofs.Nesting
import Formula.Proofs.Collapse.Groups
import Formula.Proofs.Parsing
import Formula.Proofs.DepthLimit
import Formula.Proofs.Scanning.Classes
import Formula.Proofs.Scanning.Munching
import Formula.Proofs.Number.Nearest
import Formula.Proofs.Number.Decimal
import Formula.Proofs.Scanning.Literal
import Formula.Proofs.Scanning.Munches
import Formula.Proofs.Scanning.Streaming
import Formula.Proofs.Number.Numerals
import Formula.Proofs.Number.Pattern
import Formula.Proofs.Printing.Rereading
import Formula.Proofs.Printing.Text
import Formula.Proofs.Printing.RoundTrip
import Formula.Proofs.Agreement
import Formula.Proofs.Blame
import Formula.Proofs.Extent
import Formula.Proofs.Limits
import Formula.Proofs.WrittenStars
import Formula.Proofs.Postorder
import Formula.Proofs.FirstFault
import Formula.Proofs.Balance
import Formula.Proofs.Substitution.Tokens
import Formula.Proofs.Substitution.Trees
import Formula.Proofs.Substitution.Formulas
import Formula.Proofs.Refusal
import Formula.Proofs.Parentheses
import Formula.Proofs.Places
import Formula.Proofs.Relocation
import Formula.Proofs.Scanning.Spacing
import Formula.Proofs.Sameness
import Formula.Proofs.Registration
import Formula.Proofs.Precedence.Resolving
import Formula.Proofs.Scanning.FirstProblem
import Formula.Proofs.Printing.Numbers
import Formula.Proofs.LongestPath
import Formula.Proofs.Precedence.Taking
import Formula.Proofs.Precedence.Ownership
