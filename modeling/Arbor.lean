import Arbor.Text.Blank
import Arbor.Text.Plain
import Arbor.Text.Quoted
import Arbor.Number.Reading
import Arbor.Number.Remainder
import Arbor.Number.Shortest
import Arbor.Number.Word
import Arbor.Token
import Arbor.Token.Scan
import Arbor.Token.Render
import Arbor.Operator
import Arbor.Operator.Apply
import Arbor.Fault
import Arbor.Expr
import Arbor.Tree
import Arbor.Tree.Graft
import Arbor.Tree.Growth
import Arbor.Tree.Outline
import Arbor.Value
import Arbor.Memory
import Arbor.Run
import Arbor.Evaluate
import Arbor.Session
import Arbor.Line
import Arbor.Prompt
import Arbor.CommandLine.Folder
import Arbor.CommandLine.Manual
import Arbor.CommandLine.Request
import Arbor.CommandLine.Answer
import Arbor.Main
import Arbor.Proofs.Tree.Links
import Arbor.Proofs.Tree.Extension
import Arbor.Proofs.Tree.Beside
import Arbor.Proofs.Growth.Step
import Arbor.Proofs.Growth.Placed
import Arbor.Proofs.Growth.Extension
import Arbor.Proofs.Tree.Grove
import Arbor.Proofs.Tree.Planting
import Arbor.Proofs.Growth.Rooted
import Arbor.Proofs.Session.Reachable
import Arbor.Proofs.Session.Rollback
import Arbor.Proofs.Memory.Lookup
import Arbor.Proofs.Memory.Layered
import Arbor.Proofs.Grammar.Recogniser
import Arbor.Proofs.Grammar.Expressions
import Arbor.Proofs.Grammar.Tracks
import Arbor.Proofs.Run.Confined
import Arbor.Proofs.Session.Layered
import Arbor.Proofs.Grammar.Statements
import Arbor.Proofs.Return.Machine
import Arbor.Proofs.Return.Simulation
import Arbor.Proofs.Token.Lexeme
import Arbor.Proofs.Token.Located
import Arbor.Proofs.Expr.Made
import Arbor.Proofs.Tree.Shape
import Arbor.Proofs.Tree.Fitting
import Arbor.Proofs.Growth.Shape
import Arbor.Proofs.Growth.Refusal
import Arbor.Proofs.Return.Limits
import Arbor.Proofs.Session.Faults
import Arbor.Proofs.Run.Sound
import Arbor.Proofs.Run.Lockstep
import Arbor.Proofs.Session.References
import Arbor.Proofs.Session.Locations
import Arbor.Proofs.Expr.Later
import Arbor.Proofs.Tree.Later
import Arbor.Proofs.Growth.Later
import Arbor.Proofs.Growth.Turn
import Arbor.Proofs.Growth.Seam
import Arbor.Proofs.Return.Sequence
import Arbor.Proofs.Run.Joined
import Arbor.Proofs.Session.Incremental
import Arbor.Proofs.Token.Spelling
import Arbor.Proofs.Token.Tiling
import Arbor.Proofs.Token.RoundTrip
import Arbor.Proofs.Return.Counters
import Arbor.Proofs.Session.Counters
import Arbor.Proofs.Tree.Subtree
import Arbor.Proofs.Tree.Wording
import Arbor.Proofs.Expr.Wording
import Arbor.Proofs.Growth.Opened
import Arbor.Proofs.Growth.Wording
import Arbor.Proofs.Growth.Recovered
import Arbor.Proofs.Growth.Origin
import Arbor.Proofs.Run.Settling
import Arbor.Proofs.Session.Termination
import Arbor.Proofs.Run.Pairing
import Arbor.Proofs.Run.Abreast
import Arbor.Proofs.Session.Transparency
import Arbor.Proofs.Memory.Agreement
import Arbor.Proofs.Session.Unmentioned
import Arbor.Proofs.Token.LineBreak
import Arbor.Proofs.Growth.Clean
import Arbor.Proofs.Session.Litter
import Arbor.Proofs.Tree.Forest
import Arbor.Proofs.Growth.Changes
import Arbor.Proofs.Session.Forest
import Arbor.Proofs.Grammar.Continued
import Arbor.Proofs.Session.Appended
import Arbor.Proofs.Growth.Layout
import Arbor.Proofs.Run.Branches
import Arbor.Proofs.Memory.Recency
import Arbor.Proofs.Token.Blocked
import Arbor.Proofs.Expr.Chain
import Arbor.Proofs.Expr.Grouping
import Arbor.Proofs.Memory.Slots
import Arbor.Proofs.Return.Slots
import Arbor.Proofs.Session.Slots
import Arbor.Proofs.Return.Input
import Arbor.Proofs.Session.Input
import Arbor.Proofs.Memory.Removal
import Arbor.Proofs.Return.Writes
import Arbor.Proofs.Session.Removal
import Arbor.Proofs.Growth.Operands
import Arbor.Proofs.Run.Flat
import Arbor.Proofs.Session.Nesting
import Arbor.Proofs.Run.Parameters
import Arbor.Proofs.Session.Parameters
import Arbor.Proofs.Number.Order
import Arbor.Proofs.Operator.Comparison
import Arbor.Proofs.Text.Quoted
import Arbor.Proofs.Tree.Outline
import Arbor.Proofs.Session.Prompted
import Arbor.Proofs.Number.Unsigned
import Arbor.Proofs.Number.Numeral
import Arbor.Proofs.Operator.Proper
import Arbor.Proofs.Return.Values
import Arbor.Proofs.Session.Proper
import Arbor.Proofs.Number.Exact
import Arbor.Proofs.Number.Remainder
import Arbor.Proofs.Number.Word
import Arbor.Proofs.Operator.Words
