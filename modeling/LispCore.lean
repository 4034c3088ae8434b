import LispCore.Analyzer
import LispCore.Analyzer.Params
import LispCore.Bindings
import LispCore.Builtins
import LispCore.Closure
import LispCore.Double
import LispCore.Double.Rounding
import LispCore.Double.Shortest
import LispCore.Env
import LispCore.Error
import LispCore.Eval
import LispCore.Expr
import LispCore.Globals
import LispCore.Host
import LispCore.Interpreter
import LispCore.Name
import LispCore.Name.Interner
import LispCore.Reader
import LispCore.Reader.Token
import LispCore.Session
import LispCore.Session.Handles
import LispCore.Store
import LispCore.Text.Blank
import LispCore.Text.Invisible
import LispCore.Text.Literal
import LispCore.Text.Numeral
import LispCore.Value
import LispCore.Value.Arity
import LispCore.Value.Order
import LispCore.Value.Printer
import LispCore.Value.Sequence
import LispCore.Proofs.Agreement
import LispCore.Proofs.Activation
import LispCore.Proofs.Limits
import LispCore.Proofs.MacroFree
import LispCore.Proofs.Sequencing
import LispCore.Proofs.History
import LispCore.Proofs.Frames
import LispCore.Proofs.Memory
import LispCore.Proofs.Guarantee
import LispCore.Proofs.WellFormed
import LispCore.Proofs.Interleaving
import LispCore.Proofs.Definitions
import LispCore.Proofs.Namespaces
import LispCore.Proofs.Convergence
import LispCore.Proofs.Printing
import LispCore.Proofs.Lines
import LispCore.Proofs.Equality
import LispCore.Proofs.Descent
import LispCore.Proofs.Compaction
import LispCore.Proofs.EmptyFrames
import LispCore.Proofs.Worker
import LispCore.Proofs.DepthAccounting
import LispCore.Proofs.Reporting
import LispCore.Proofs.SourceNames
import LispCore.Proofs.Expansion
import LispCore.Proofs.Outcomes
import LispCore.Proofs.Grammar
import LispCore.Proofs.CallFrames
import LispCore.Proofs.Comparison
import LispCore.Proofs.VectorLiterals
import LispCore.Proofs.Shapes
import LispCore.Proofs.Shadowing
import LispCore.Proofs.HostCalls
import LispCore.Proofs.HostGlobals
import LispCore.Proofs.DefinedNames
import LispCore.Proofs.Nesting
import LispCore.Proofs.Reentry
import LispCore.Proofs.SelfEvaluation
import LispCore.Proofs.StringLiterals
import LispCore.Proofs.Spelling
import LispCore.Proofs.LexicalLookup
import LispCore.Proofs.Interning
