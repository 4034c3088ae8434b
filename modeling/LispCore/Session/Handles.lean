import LispCore.Eval
import LispCore.Reader.Token

/-!
# Environment handles

Whoever embeds the evaluator holds environments through named handles. Closures hold the environment
they are made in, and tasks the frame they run in; these are numbered in the order in which they
were captured. An `EnvCommand` is one operation on all this. Binding through the handle of a frame
replaces what that handle refers to, so no other handle, closure or task sees it; a change of globals
is made in the store, so everything over that root sees it.
-/

namespace LispCore

/-- Why a command of a session fails. -/
inductive Failure where
  | error (e : Error)
  | unreadable (e : ReadError)
  | unknownHandle (name : String)
  /-- No closure or task with this number holds an environment. -/
  | notCaptured (index : Nat)
  /-- The interpreter has been given up. -/
  | noInterpreter

/-- A store with environments over it. -/
structure Handles where
  store : Store := {}
  /-- The environments behind the handles. -/
  envs : Bindings Env := []
  /-- The environments that closures and tasks hold, the earliest first; none once they are gone. -/
  captured : List (Option Env) := []

inductive EnvCommand where
  | new (target ns : String)
  | child (target env name : String) (vars : List (String × Value))
  | clone (target env : String)
  | root (target env : String)
  | parent (target env : String)
  | info (env : String)
  | bind (env name : String) (value : Value)
  | resolve (env name : String)
  | lookup (env : String) (symbol : Symbol)
  | resolveQualified (env ns name : String)
  | bindQualified (env ns name : String) (value : Value)
  | bindGlobal (env : String) (symbol : Symbol) (value : Value)
  | switchNamespace (env ns : String)
  | createNamespace (env ns : String)
  | clearGlobals (env : String)
  /-- Makes a closure in the environment. -/
  | capture (env : String)
  /-- Starts a task in a new frame inside the environment. -/
  | launch (env : String)
  /-- Makes a handle of what a closure or task holds. -/
  | reopen (target : String) (index : Nat)
  /-- The closure is no longer in use, or the task has ended. -/
  | release (index : Nat)

/-- What can be told of an environment. -/
structure EnvInfo where
  name : String
  isRoot : Bool
  parent : Option String
  activeNamespace : String
  namespaces : List String
  description : String

inductive EnvReply where
  | ok
  | absent
  | value (v : Value)
  /-- A handle was set; the name is that of its innermost frame. -/
  | frame (name : String)
  | info (i : EnvInfo)

namespace Handles

abbrev Action := EStateM Failure Handles

/-- The environment behind a handle. -/
def find (name : String) : Action Env := do
  match (← get).envs.find? name with
  | some env => return env
  | none => throw (.unknownHandle name)

/-- The environment that a closure or task holds. -/
def findCaptured (index : Nat) : Action Env := do
  match (← get).captured[index]?.join with
  | some env => return env
  | none => throw (.notCaptured index)

/-- Makes `name` a handle of `env`. -/
def set (name : String) (env : Env) : Action EnvReply := do
  modify fun h => { h with envs := h.envs.insert name env }
  return .frame env.name

/-- Lets a new closure or task hold `env`. -/
def hold (env : Env) : Action EnvReply := do
  modify fun h => { h with captured := h.captured ++ [some env] }
  return .ok

def globals (env : Env) : Action Globals := do
  return (← get).store.globals env.rootId

/-- The value of a result, or its error as a failure. -/
def check {α : Type} : Except Error α → Action α
  | .ok a => return a
  | .error e => throw (.error e)

/-- Replaces the globals at the root of `env`, unless that fails. -/
def update (env : Env) (f : Globals → Except Error Globals) : Action EnvReply := do
  let g ← check (f (← globals env))
  modify fun h => { h with store := h.store.setGlobals env.rootId g }
  return .ok

/-- Binds through a handle. -/
def bind (name : String) (env : Env) (key : String) (v : Value) : Action EnvReply :=
  match env with
  | .root _ => update env (·.bind key v)
  | .frame n vars p => do
    let key ← check (bindingName key)
    discard <| set name (.frame n (Bindings.insert key v vars) p)
    return .ok

def describe (env : Env) (g : Globals) : EnvInfo where
  name := env.name
  isRoot := env.isRoot
  parent := env.parent?.map (·.name)
  activeNamespace := g.active
  namespaces := g.namespaces
  description := env.describe g

end Handles

open Handles in
/-- Carries out an operation on environments. -/
def EnvCommand.exec : EnvCommand → Handles.Action EnvReply
  | new target ns => do
    let env ← modifyGet fun h =>
      let (env, store) := h.store.addRoot (Globals.ofNamespace ns)
      (env, { h with store })
    set target env
  | child target env name vars => do set target ((← find env).child name (Bindings.ofPairs vars))
  | clone target env => do set target (← find env)
  | root target env => do set target (.root (← find env).rootId)
  | parent target env => do
    match (← find env).parent? with
    | some p => set target p
    | none => return .absent
  | info env => do
    let env ← find env
    return .info (describe env (← globals env))
  | bind name key value => do Handles.bind name (← find name) key value
  | resolve env name => do
    let env ← find env
    return .value (← check (env.resolve (← globals env) name))
  | lookup env symbol => do
    let env ← find env
    return .value (← check (env.lookup (← globals env) symbol))
  | resolveQualified env ns name => do
    let env ← find env
    return .value (← check ((← globals env).resolveQualified ns name))
  | bindQualified env ns name value => do update (← find env) (·.bindQualified ns name value)
  | bindGlobal env symbol value => do update (← find env) (·.define symbol value)
  | switchNamespace env ns => do update (← find env) (·.switchNamespace ns)
  | createNamespace env ns => do update (← find env) (·.createNamespace ns)
  | clearGlobals env => do update (← find env) fun g => .ok g.clear
  | capture env => do hold (← find env)
  | launch env => do hold ((← find env).child Level.goFrame [])
  | reopen target index => do set target (← findCaptured index)
  | release index => do
    modify fun h => { h with captured := h.captured.set index none }
    return .ok

end LispCore
