import LispCore.Interpreter
import LispCore.Reader
import LispCore.Session.Handles

/-!
# Sessions

A session is an interpreter in use: the handles and values that its user holds, the depth of
nesting with the limit for evaluations that do not go through the interpreter, and the outcomes of
tasks that were reported and not yet received. A `Command` is one step. The tasks started in a
step run when the step is over, in the order in which they were started. The user may give the
interpreter up; environments and values outlive it.
-/

namespace LispCore

inductive Command where
  | env (c : EnvCommand)
  | eval (form : Value)
  | evalAll (forms : List Value)
  /-- Reads a text and evaluates its forms. -/
  | run (text : String)
  | analyze (form : Value)
  | bind (name : String) (value : Value)
  | bindAll (pairs : List (String × Value))
  /-- Binds a native function that returns its arguments as a vector. -/
  | register (name : String)
  | get (name : String)
  | call (name : String) (args : List Value)
  | activeNamespace
  | switchNamespace (ns : String)
  | expand (env : String) (form : Value)
  | expandOnce (env : String) (form : Value)
  | isSpecial (name : String)
  | describeAnalyzer
  /-- Gives the interpreter up, which clears its globals. Once it is gone, nothing happens. -/
  | drop
  | receive (channel count : Nat)
  | apply (f : Value) (args : List Value)
  | setMaxDepth (limit : Nat)
  | depth
  | evalIn (env : String) (form : Value)
  | analyzeIn (env : String) (form : Value)
  | evalExpr (env : String) (e : Expr)

/-- The outcome of a task. -/
abbrev Outcome := Except Error Value

/-- What outcomes are sorted by: the printed value or the message of the error. -/
def outcomeText : Outcome → String
  | .ok v => v.display
  | .error e => e.message

inductive Response where
  | ok
  | absent
  | value (v : Value)
  | expr (e : Expr)
  | text (s : String)
  | flag (b : Bool)
  | frame (name : String)
  | info (i : EnvInfo)
  | analyzer (description : String) (maxExpansions : Nat)
  | outcomes (os : List Outcome)
  | previousLimit (limit : Nat)
  | depth (c : Context)

def EnvReply.toResponse : EnvReply → Response
  | ok => .ok
  | absent => .absent
  | value v => .value v
  | frame name => .frame name
  | info i => .info i

structure Session where
  handles : Handles
  /-- None once it has been given up. -/
  interpreter : Option Interpreter
  context : Context := ⟨0, Interpreter.defaultMaxDepth⟩
  saved : Bindings Value := []
  /-- Reported and not yet received, each with its channel, the oldest first. -/
  inbox : List (Nat × Outcome) := []

namespace Session

abbrev Action := EStateM Failure Session

/-- The handle of the interpreter's root. -/
def rootHandle : String := "root"

/-- Starts a session with a new interpreter. Identities below `nextId` are taken. -/
def start (c : Config) (nextId : Nat) : Except Error Session :=
  match c.build { nextId } with
  | .ok i store => .ok { handles := { store, envs := [(rootHandle, i.env)] }, interpreter := some i }
  | .error e _ => .error e

def setStore (s : Session) (store : Store) : Session :=
  { s with handles := { s.handles with store } }

/-- Runs an evaluation over the store of the session. -/
def evaluate {α : Type} (run : Run α) : Action α := fun s =>
  match run s.handles.store with
  | .ok a store => .ok a (s.setStore store)
  | .error e store => .error (.error e) (s.setStore store)

def onHandles {α : Type} (act : Handles.Action α) : Action α := fun s =>
  match act s.handles with
  | .ok a handles => .ok a { s with handles }
  | .error e handles => .error e { s with handles }

/-- Carries out a command on environments that only answers whether it succeeded. -/
def onEnv (c : EnvCommand) : Action Response := do
  return (← onHandles c.exec).toResponse

/-- The interpreter, unless it has been given up. -/
def theInterpreter : Action Interpreter := do
  match (← get).interpreter with
  | some i => return i
  | none => throw .noInterpreter

/-! ## Tasks -/

/-- Hands an outcome to whoever is to see it. -/
def deliver (s : Session) : SpawnPolicy → Outcome → Session
  | .detach, _ => s
  | .report channel, o => { s with inbox := s.inbox ++ [(channel, o)] }

/-- Runs one task to its end. -/
def runTask (s : Session) (t : Task) : Session :=
  match eval (m := Run) standardHost t.limit t.limit t.env t.body s.handles.store with
  | .ok v store => (s.setStore store).deliver t.policy (.ok v)
  | .error e store => (s.setStore store).deliver t.policy (.error e)

/-- Runs waiting tasks, also those that the tasks themselves start, for at most `rounds`
rounds. -/
def runTasks : (rounds : Nat) → Session → Session
  | 0, s => s
  | rounds + 1, s => match s.handles.store.tasks with
    | [] => s
    | tasks =>
      let s := s.setStore { s.handles.store with tasks := [] }
      runTasks rounds (tasks.reverse.foldl runTask s)

/-- How many rounds of tasks follow a step; tasks beyond that wait for the next step. -/
def taskRounds : Nat := 100000

/-! ## Commands -/

def exec : Command → Action Response
  | .env c => onEnv c
  | .eval form => do
    let i ← theInterpreter
    return .value (← evaluate (i.eval standardHost (← get).context.depth form))
  | .evalAll forms => do
    let i ← theInterpreter
    return .value (← evaluate (i.evalAll standardHost (← get).context.depth forms))
  | .run text => match read text with
    | .ok forms => do
      let i ← theInterpreter
      return .value (← evaluate (i.evalAll standardHost (← get).context.depth forms))
    | .error e => throw (.unreadable e)
  | .analyze form => do
    let i ← theInterpreter
    return .expr (← evaluate (i.analyze standardHost (← get).context.depth form))
  | .bind name v => do
    evaluate ((← theInterpreter).bind name v)
    return .ok
  | .bindAll pairs => do
    evaluate ((← theInterpreter).bindAll pairs)
    return .ok
  | .register name => do
    evaluate ((← theInterpreter).register name Builtin.echo.name)
    return .ok
  | .get name => do
    match (← evaluate ((← theInterpreter).get? name)) with
    | some v => return .value v
    | none => return .absent
  | .call name args => do
    let i ← theInterpreter
    return .value (← evaluate (i.call standardHost (← get).context.depth name args))
  | .activeNamespace => do
    let i ← theInterpreter
    return .text ((← get).handles.store.globals i.root).active
  | .switchNamespace ns => do
    let i ← theInterpreter
    return (← onHandles (Handles.update i.env (·.switchNamespace ns))).toResponse
  | .expand env form => do
    let env ← onHandles (Handles.find env)
    let a := (← theInterpreter).analyzer
    return .value (← evaluate (a.expand standardHost (← get).context env form))
  | .expandOnce env form => do
    let env ← onHandles (Handles.find env)
    match (← evaluate ((Level.ofContext standardHost (← get).context).expandOnce env form)) with
    | some v => return .value v
    | none => return .absent
  | .isSpecial name => do return .flag ((← theInterpreter).analyzer.isSpecial name)
  | .describeAnalyzer => do
    let a := (← theInterpreter).analyzer
    return .analyzer a.describe a.maxExpansions
  | .drop => do
    if let some i := (← get).interpreter then
      discard <| onHandles (Handles.update i.env fun g => .ok g.clear)
      modify fun s => { s with interpreter := none }
    return .ok
  | .receive channel count => modifyGet fun s =>
    let (waiting, others) := s.inbox.partition (·.1 == channel)
    let received := (waiting.take count).map Prod.snd
    (.outcomes (received.mergeSort fun a b => outcomeText a ≤ outcomeText b),
      { s with inbox := waiting.drop count ++ others })
  | .apply f args => do return .value (← evaluate (apply standardHost (← get).context f args))
  | .setMaxDepth limit => modifyGet fun s =>
    (.previousLimit s.context.limit, { s with context := { s.context with limit } })
  | .depth => do return .depth (← get).context
  | .evalIn env form => do
    let env ← onHandles (Handles.find env)
    let a := (← theInterpreter).analyzer
    return .value (← evaluate (a.evalTop standardHost (← get).context env form))
  | .analyzeIn env form => do
    let env ← onHandles (Handles.find env)
    let a := (← theInterpreter).analyzer
    let c := (← get).context
    return .expr (← evaluate (a.analyze standardHost c.limit c.left env form))
  | .evalExpr env e => do
    let env ← onHandles (Handles.find env)
    let c := (← get).context
    return .value (← evaluate (eval standardHost c.limit c.left env e))

/-- Keeps the value of a response under a key. -/
def save (s : Session) (key : Option String) (r : Response) : Session :=
  match key, r with
  | some key, .value v => { s with saved := s.saved.insert key v }
  | _, _ => s

/-- One step: a command, then the tasks that wait. -/
def step (s : Session) (c : Command) (key : Option String) : Except Failure Response × Session :=
  match exec c s with
  | .ok r s => (.ok r, (s.save key r).runTasks taskRounds)
  | .error e s => (.error e, s.runTasks taskRounds)

end Session

end LispCore
