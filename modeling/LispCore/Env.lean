import LispCore.Globals
import LispCore.Text.Literal

/-!
# Environments

A chain of frames that ends in a root. What a frame binds is part of the chain; what the root
binds are the globals of the store, so the functions here that need them take them as an argument.
-/

namespace LispCore.Env

def rootName : String := "<root>"

/-- Frames are named after the function or block that made them. -/
def name : Env → String
  | .root _ => rootName
  | .frame n _ _ => n

def parent? : Env → Option Env
  | .root _ => none
  | .frame _ _ p => some p

def isRoot : Env → Bool
  | .root _ => true
  | .frame _ _ _ => false

/-- The root that the chain ends in. -/
def rootId : Env → Nat
  | .root id => id
  | .frame _ _ p => p.rootId

/-- Induction along the chain, from the root inwards. -/
theorem chain_induction {P : Env → Prop} (root : ∀ id, P (.root id))
    (frame : ∀ name vars parent, P parent → P (.frame name vars parent)) : ∀ env, P env
  | .root id => root id
  | .frame name vars parent => frame name vars parent (chain_induction root frame parent)

/-- A new frame inside this one. -/
def child (env : Env) (name : String) (vars : Bindings Value) : Env := .frame name vars env

/-- The value that the frames of the chain bind to `name`, from the inside out. -/
def find? (name : String) : Env → Option Value
  | .root _ => none
  | .frame _ vars p => match Bindings.find? name vars with
    | some v => some v
    | none => p.find? name

/-- Looks a symbol up from here: frames hide outer frames, and all of them hide the globals; a
symbol with a namespace is looked up among the globals only. -/
def lookup (env : Env) (g : Globals) (s : Symbol) : Except Error Value :=
  match s.space, env.find? s.base with
  | none, some v => .ok v
  | _, _ => g.lookup s

/-- Looks a name up in this frame alone. -/
def resolve (env : Env) (g : Globals) (name : String) : Except Error Value :=
  let found := match env with
    | .root _ => g.findActive? name
    | .frame _ vars _ => Bindings.find? name vars
  match found with
  | some v => .ok v
  | none => .error (.notFound name)

/-- The description of an environment: a root tells its active namespace, a frame its names. -/
def describe (env : Env) (g : Globals) : String :=
  match env with
  | .root _ =>
    "Env \x7b name: " ++ Text.visible rootName ++ ", namespace: " ++ Text.visible g.active
      ++ " \x7d"
  | .frame n vars p =>
    "Env \x7b name: " ++ Text.visible n ++ ", vars: " ++ Text.visibleList (Bindings.keys vars)
      ++ ", parent: " ++ Text.visible p.name ++ " \x7d"

end LispCore.Env
