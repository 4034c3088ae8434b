import LispCore.Analyzer
import LispCore.Builtins

/-!
# Interpreters

An `Interpreter` pairs a root environment with an analyzer and a limit on nesting. Its functions
run in any monad that answers the requests of evaluations.
-/

namespace LispCore

structure Interpreter where
  root : Nat
  analyzer : Analyzer
  maxDepth : Nat

namespace Interpreter

def defaultMaxDepth : Nat := 10000

def env (i : Interpreter) : Env := .root i.root

variable {m : Type → Type} [MonadStore m] (host : Host) (i : Interpreter)

/-- The nesting of a run that starts at `depth` under the interpreter's own limit. -/
def context (depth : Nat) : Context := ⟨depth, i.maxDepth⟩

/-- Analyzes and evaluates one form at the root. -/
def eval (depth : Nat) (form : Value) : m Value :=
  i.analyzer.evalTop host (i.context depth) i.env form

/-- Evaluates forms in order; the last value is the answer. Each form is analyzed after the ones
before it have run, so that their macros apply to it. -/
def evalAll (depth : Nat) (forms : List Value) : m Value :=
  forms.foldlM (fun _ form => i.eval host depth form) .nil

/-- Analyzes a form without evaluating it. -/
def analyze (depth : Nat) (form : Value) : m Expr :=
  i.analyzer.analyze host i.maxDepth (i.context depth).left i.env form

/-- Binds a global; `name` may have a namespace. -/
def bind (name : String) (v : Value) : m Unit := do
  ofExcept (← request (.define i.root (Symbol.parse name) v))

/-- Binds several globals, up to the first that fails. -/
def bindAll (pairs : List (String × Value)) : m Unit :=
  pairs.forM fun (name, v) => i.bind name v

/-- Binds the function that the host knows as `function`. -/
def register (name function : String) : m Unit := do
  let id ← request .freshId
  i.bind name (.native { id, name, function := some function })

/-- The value of a global. -/
def get? (name : String) : m (Option Value) := do
  match (← i.env.lookupM (Symbol.parse name)) with
  | .ok v => pure (some v)
  | .error _ => pure none

/-- Calls a global function. -/
def call (depth : Nat) (name : String) (args : List Value) : m Value := do
  let f ← ofExcept (← i.env.lookupM (Symbol.parse name))
  apply host (i.context depth) f args

end Interpreter

/-- How an interpreter is made. -/
structure Config where
  maxDepth : Nat := Interpreter.defaultMaxDepth
  activeNamespace : String := Globals.defaultNamespace
  analyzer : Analyzer := Analyzer.standard
  /-- Each is bound under its own name. -/
  builtins : List Builtin := []
  /-- Bound after the builtins. -/
  globals : List (String × Value) := []

namespace Config

/-- Makes an interpreter with a new root. It fails if a name cannot be bound. -/
def build (c : Config) : Run Interpreter := do
  let root ← modifyGet fun s => s.addRoot (Globals.ofNamespace c.activeNamespace)
  let i : Interpreter := ⟨root.rootId, c.analyzer, c.maxDepth⟩
  c.builtins.forM fun b => i.register b.name b.name
  i.bindAll c.globals
  return i

end Config

end LispCore
