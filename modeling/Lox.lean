import Lox.CommandLine
import Lox.Error.Basic
import Lox.Error.Fault
import Lox.FileTree
import Lox.Grammar.Parse
import Lox.Grammar.Rules
import Lox.Grammar.State
import Lox.Machine.Basic
import Lox.Machine.Operators
import Lox.Machine.Step
import Lox.Machine.World
import Lox.Main
import Lox.Number.Layout
import Lox.Number.Magnitude
import Lox.Number.Reader
import Lox.Number.Shortest
import Lox.Proofs.Grammar.Acceptance
import Lox.Proofs.Grammar.Completeness
import Lox.Proofs.Grammar.Derivation
import Lox.Proofs.Grammar.ErrorOrder
import Lox.Proofs.Grammar.Lookahead
import Lox.Proofs.Grammar.Loops
import Lox.Proofs.Grammar.Nesting
import Lox.Proofs.Grammar.Parallel
import Lox.Proofs.Grammar.Provenance
import Lox.Proofs.Grammar.Recovery
import Lox.Proofs.Grammar.Regular
import Lox.Proofs.Grammar.Soundness
import Lox.Proofs.Grammar.Termination
import Lox.Proofs.Grammar.Tracking
import Lox.Proofs.Lines.Grammar
import Lox.Proofs.Lines.Machine
import Lox.Proofs.Lines.Scoping
import Lox.Proofs.Lines.Syntax
import Lox.Proofs.Lines.Tokens
import Lox.Proofs.Lines.World
import Lox.Proofs.Lockstep.Machine
import Lox.Proofs.Lockstep.Trees
import Lox.Proofs.Lockstep.World
import Lox.Proofs.Machine.Agreement
import Lox.Proofs.Machine.Basic
import Lox.Proofs.Machine.Calls
import Lox.Proofs.Machine.Causes
import Lox.Proofs.Machine.Conduct
import Lox.Proofs.Machine.Confinement
import Lox.Proofs.Machine.Environments
import Lox.Proofs.Machine.ForLoops
import Lox.Proofs.Machine.Lineage
import Lox.Proofs.Machine.Origins
import Lox.Proofs.Machine.Places
import Lox.Proofs.Machine.Preservation
import Lox.Proofs.Machine.Restoration
import Lox.Proofs.Machine.Shapes
import Lox.Proofs.Machine.Termination
import Lox.Proofs.Machine.Tracing
import Lox.Proofs.Number.Bits
import Lox.Proofs.Number.Numerals
import Lox.Proofs.Number.Rounding
import Lox.Proofs.Number.Shortest
import Lox.Proofs.Reordering.Scoping
import Lox.Proofs.Reordering.Syntax
import Lox.Proofs.Reordering.World
import Lox.Proofs.Scoping.Actions
import Lox.Proofs.Scoping.Classes
import Lox.Proofs.Scoping.ErrorOrder
import Lox.Proofs.Scoping.Names
import Lox.Proofs.Scoping.Occurrences
import Lox.Proofs.Scoping.Reports
import Lox.Proofs.Scoping.Resolved
import Lox.Proofs.Scoping.Reuse
import Lox.Proofs.Scoping.Sites
import Lox.Proofs.Scoping.SourceOrder
import Lox.Proofs.Scoping.Violations
import Lox.Proofs.Scoping.Visibility
import Lox.Proofs.Scoping.Walk
import Lox.Proofs.Session.Agreement
import Lox.Proofs.Session.BoundNames
import Lox.Proofs.Session.DefiniteBinding
import Lox.Proofs.Session.DepthLimit
import Lox.Proofs.Session.ExpressionEntry
import Lox.Proofs.Session.ForLoops
import Lox.Proofs.Session.FunctionOrder
import Lox.Proofs.Session.Histories
import Lox.Proofs.Session.Incremental
import Lox.Proofs.Session.Numbers
import Lox.Proofs.Session.OutwardLookup
import Lox.Proofs.Session.Reachable
import Lox.Proofs.Session.Receivers
import Lox.Proofs.Session.Scopes
import Lox.Proofs.Session.StaticErrors
import Lox.Proofs.Session.Termination
import Lox.Proofs.Syntax.Forms
import Lox.Proofs.Syntax.Printing
import Lox.Proofs.Syntax.Readability
import Lox.Proofs.Token.Bytes
import Lox.Proofs.Token.Cursor
import Lox.Proofs.Token.Decomposition
import Lox.Proofs.Token.InPlace
import Lox.Proofs.Token.LineNumbers
import Lox.Proofs.Token.LongestMatch
import Lox.Proofs.Token.Pieces
import Lox.Proofs.Token.Respacing
import Lox.Proofs.Widening.Scoping
import Lox.Proofs.Widening.Syntax
import Lox.Proofs.Widening.World
import Lox.Scoping.Basic
import Lox.Scoping.Resolve
import Lox.Session
import Lox.Syntax.Basic
import Lox.Syntax.Equality
import Lox.Syntax.Outline
import Lox.Syntax.Printer
import Lox.Text.Blank
import Lox.Text.Printable
import Lox.Text.Quoted
import Lox.Text.Utf8
import Lox.Token.Basic
import Lox.Token.Dump
import Lox.Token.Lexer
import Lox.Value.Basic
import Lox.Value.Bindings
import Lox.Value.Display
import Lox.Value.Store
