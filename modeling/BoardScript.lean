import BoardScript.Code.Chunk
import BoardScript.Code.Compile
import BoardScript.Code.Listing
import BoardScript.Code.OpCode
import BoardScript.Command
import BoardScript.Decimal.Nearest
import BoardScript.Decimal.Shortest
import BoardScript.Grammar.Automaton
import BoardScript.Grammar.First
import BoardScript.Grammar.Recognizer
import BoardScript.Grammar.Symbol
import BoardScript.Grammar.Tables
import BoardScript.Host.Board
import BoardScript.Host.Error
import BoardScript.Host.Math
import BoardScript.Host.Object
import BoardScript.Main
import BoardScript.Numeric.Basic
import BoardScript.Numeric.CubeRoot
import BoardScript.Numeric.Double
import BoardScript.Numeric.Hypot
import BoardScript.Program.Analysis
import BoardScript.Program.Node
import BoardScript.Program.Parse
import BoardScript.Program.Print
import BoardScript.Program.Rules
import BoardScript.Program.Surface
import BoardScript.Proofs.Code.Assembly
import BoardScript.Proofs.Code.Balanced
import BoardScript.Proofs.Code.Decoded
import BoardScript.Proofs.Code.Interning
import BoardScript.Proofs.Code.LookedUp
import BoardScript.Proofs.Code.Typed
import BoardScript.Proofs.Code.WellFormed
import BoardScript.Proofs.Command.Arguments
import BoardScript.Proofs.Grammar.Beginning
import BoardScript.Proofs.Grammar.Closure
import BoardScript.Proofs.Grammar.Entries
import BoardScript.Proofs.Grammar.First
import BoardScript.Proofs.Grammar.Generated
import BoardScript.Proofs.Grammar.Lookahead
import BoardScript.Proofs.Grammar.Prefix
import BoardScript.Proofs.Grammar.Recognized
import BoardScript.Proofs.Grammar.Settle
import BoardScript.Proofs.Grammar.States
import BoardScript.Proofs.Host.Onward
import BoardScript.Proofs.Host.Property
import BoardScript.Proofs.Host.Roster
import BoardScript.Proofs.Program.Accept
import BoardScript.Proofs.Program.Builds
import BoardScript.Proofs.Program.Conflict
import BoardScript.Proofs.Program.Derivation
import BoardScript.Proofs.Program.Driver
import BoardScript.Proofs.Program.Else
import BoardScript.Proofs.Program.Follow
import BoardScript.Proofs.Program.Formula
import BoardScript.Proofs.Program.Grammatical
import BoardScript.Proofs.Program.Interactive
import BoardScript.Proofs.Program.Joined
import BoardScript.Proofs.Program.Mention
import BoardScript.Proofs.Program.Moved
import BoardScript.Proofs.Program.Nested
import BoardScript.Proofs.Program.Offered
import BoardScript.Proofs.Program.Plain
import BoardScript.Proofs.Program.Phrasing
import BoardScript.Proofs.Program.Progress
import BoardScript.Proofs.Program.Quoted
import BoardScript.Proofs.Program.Recast
import BoardScript.Proofs.Program.Recorded
import BoardScript.Proofs.Program.Reread
import BoardScript.Proofs.Program.RoundTrip
import BoardScript.Proofs.Program.Spanned
import BoardScript.Proofs.Program.Stacks
import BoardScript.Proofs.Program.Viable
import BoardScript.Proofs.Program.Words
import BoardScript.Proofs.Program.Wrapped
import BoardScript.Proofs.Run.Agreement
import BoardScript.Proofs.Run.Ancestry
import BoardScript.Proofs.Run.Calling
import BoardScript.Proofs.Run.Discipline
import BoardScript.Proofs.Run.Execute
import BoardScript.Proofs.Run.FirstClass
import BoardScript.Proofs.Run.Follow
import BoardScript.Proofs.Run.Guard
import BoardScript.Proofs.Run.Lexical
import BoardScript.Proofs.Run.Limit
import BoardScript.Proofs.Run.Makes
import BoardScript.Proofs.Run.Lockstep
import BoardScript.Proofs.Run.Natural
import BoardScript.Proofs.Run.Numbered
import BoardScript.Proofs.Run.Perform
import BoardScript.Proofs.Run.Prolong
import BoardScript.Proofs.Run.Recode
import BoardScript.Proofs.Run.Register
import BoardScript.Proofs.Run.Rerun
import BoardScript.Proofs.Run.Secure
import BoardScript.Proofs.Run.Settle
import BoardScript.Proofs.Run.Snippet
import BoardScript.Proofs.Run.Steady
import BoardScript.Proofs.Run.Uncoded
import BoardScript.Proofs.Run.Walk
import BoardScript.Proofs.Text.Located
import BoardScript.Proofs.Text.Position
import BoardScript.Proofs.Token.Blanked
import BoardScript.Proofs.Token.Bytes
import BoardScript.Proofs.Token.Cover
import BoardScript.Proofs.Token.Joined
import BoardScript.Proofs.Token.Keyword
import BoardScript.Proofs.Token.Longest
import BoardScript.Proofs.Token.Placed
import BoardScript.Proofs.Token.Spelling
import BoardScript.Proofs.Value.Natural
import BoardScript.Proofs.Value.Operators
import BoardScript.Run.Activation
import BoardScript.Run.Builtin
import BoardScript.Run.Call
import BoardScript.Run.Error
import BoardScript.Run.Interpreter
import BoardScript.Run.Machine
import BoardScript.Run.Register
import BoardScript.Run.Scope
import BoardScript.Run.Stack
import BoardScript.Run.Tree
import BoardScript.Text.Blank
import BoardScript.Text.Lowercase
import BoardScript.Text.Printable
import BoardScript.Text.Quoted
import BoardScript.Text.Source
import BoardScript.Text.Span
import BoardScript.Token.Basic
import BoardScript.Token.Comment
import BoardScript.Token.Literal
import BoardScript.Token.Scan
import BoardScript.Value.Basic
import BoardScript.Value.Heap
import BoardScript.Value.Operators
