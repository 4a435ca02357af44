import TreeWalk.Number.Binary64
import TreeWalk.Number.Decimal
import TreeWalk.Number.Text
import TreeWalk.Token
import TreeWalk.Token.Scan
import TreeWalk.Token.Json
import TreeWalk.Report
import TreeWalk.Tree
import TreeWalk.Tree.Text
import TreeWalk.Grammar.Parse
import TreeWalk.Grammar.Expression
import TreeWalk.Grammar.Statement
import TreeWalk.Grammar.Program
import TreeWalk.Value
import TreeWalk.Scope
import TreeWalk.Sink
import TreeWalk.Machine.State
import TreeWalk.Machine.Operation
import TreeWalk.Machine.Evaluate
import TreeWalk.Session
import TreeWalk.Shell.Invocation
import TreeWalk.Shell.Files
import TreeWalk.Shell.Invisible
import TreeWalk.Shell.Quoted
import TreeWalk.Shell.Command
import TreeWalk.Main
import TreeWalk.Proofs.Grammar.Derivation
import TreeWalk.Proofs.Grammar.Reads
import TreeWalk.Proofs.Grammar.Progress
import TreeWalk.Proofs.Grammar.Soundness
import TreeWalk.Proofs.Grammar.Lookahead
import TreeWalk.Proofs.Grammar.Completeness
import TreeWalk.Proofs.Machine.Leaves
import TreeWalk.Proofs.Machine.Scopes
import TreeWalk.Proofs.Machine.ActiveScope
import TreeWalk.Proofs.Machine.Reach
import TreeWalk.Proofs.Machine.Noninterference
import TreeWalk.Proofs.Token.Tiling
import TreeWalk.Proofs.Token.Bytes
import TreeWalk.Proofs.Token.Cursor
import TreeWalk.Proofs.Token.Reader
import TreeWalk.Proofs.Number.Rounding
import TreeWalk.Proofs.Token.Munch
import TreeWalk.Proofs.Machine.Fuel
import TreeWalk.Proofs.Machine.Sequence
import TreeWalk.Proofs.Machine.Returnless
import TreeWalk.Proofs.Session.Outcomes
import TreeWalk.Proofs.Lines.Bare
import TreeWalk.Proofs.Lines.Execute
import TreeWalk.Proofs.Lines.Parse
import TreeWalk.Proofs.Lines.Scan
import TreeWalk.Proofs.Machine.Output
import TreeWalk.Proofs.Session.Joining
import TreeWalk.Proofs.Machine.ScopeTree
import TreeWalk.Proofs.Session.Layout
import TreeWalk.Proofs.Token.Rendering
import TreeWalk.Proofs.Machine.Allocation
import TreeWalk.Proofs.Grammar.Fuel
import TreeWalk.Proofs.Grammar.Termination
import TreeWalk.Proofs.Grammar.Shape
import TreeWalk.Proofs.Machine.Inheritance
import TreeWalk.Proofs.Session.KnownOperators
import TreeWalk.Proofs.Machine.Calls
import TreeWalk.Proofs.Session.Returns
import TreeWalk.Proofs.Machine.LoneExpression
import TreeWalk.Proofs.Grammar.Printed
import TreeWalk.Proofs.Session.SingleExpression
import TreeWalk.Proofs.Shell.Modes
import TreeWalk.Proofs.Machine.Names
import TreeWalk.Proofs.Machine.Moments
import TreeWalk.Proofs.Machine.Declarations
import TreeWalk.Proofs.Machine.Composition
import TreeWalk.Proofs.Machine.Mirroring
import TreeWalk.Proofs.Machine.Overflow
import TreeWalk.Proofs.Machine.Truncation
import TreeWalk.Proofs.Machine.Correspondence
import TreeWalk.Proofs.Machine.Parallel
import TreeWalk.Proofs.Machine.Loops
import TreeWalk.Proofs.Machine.ForStatements
import TreeWalk.Proofs.Grammar.Recovery
import TreeWalk.Proofs.Grammar.Keywords
import TreeWalk.Proofs.Grammar.Begun
import TreeWalk.Proofs.Grammar.Walk
import TreeWalk.Proofs.Grammar.Stepping
import TreeWalk.Proofs.Grammar.Unended
import TreeWalk.Proofs.Machine.Unwinding
import TreeWalk.Proofs.Grammar.Walking
import TreeWalk.Proofs.Grammar.Boundaries
import TreeWalk.Proofs.Grammar.Nesting
import TreeWalk.Proofs.Machine.Owners
import TreeWalk.Proofs.Token.LineNumbers
import TreeWalk.Proofs.Lines.Seam
import TreeWalk.Proofs.Grammar.Provenance
import TreeWalk.Proofs.Session.Positions
import TreeWalk.Proofs.Machine.LoneMoments
import TreeWalk.Proofs.Machine.Worlds
import TreeWalk.Proofs.Machine.InFlight
import TreeWalk.Proofs.Machine.Identity
import TreeWalk.Proofs.Number.Encoding
import TreeWalk.Proofs.Number.Shortest
import TreeWalk.Proofs.Token.Numerals
import TreeWalk.Proofs.Session.PrintedNumbers
import TreeWalk.Proofs.Session.Listings
import TreeWalk.Proofs.Shell.Prompt
import TreeWalk.Proofs.Tree.Forms
import TreeWalk.Proofs.Tree.Spelling
import TreeWalk.Proofs.Tree.Readback
import TreeWalk.Proofs.Machine.Order
import TreeWalk.Proofs.Machine.InnerScopes
import TreeWalk.Proofs.Machine.FreeNames
