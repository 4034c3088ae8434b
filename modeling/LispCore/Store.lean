import LispCore.Env

/-!
# The store

A `Store` holds what evaluations share: the globals of every root, the next free identity, and the
tasks that `go` has started and that have not run yet. An evaluation reaches the store only
through the four kinds of `Request`; `MonadStore` is the class of monads that answer them. `Run`
answers them from a store at once; other instances can interleave the requests of several
evaluations.
-/

namespace LispCore

/-- An evaluation started by `go`. It begins at depth zero under the limit of whoever started
it. -/
structure Task where
  env : Env
  body : Expr
  limit : Nat
  policy : SpawnPolicy

structure Store where
  roots : List Globals := []
  nextId : Nat := 0
  /-- Tasks that wait to be run, the latest first. -/
  tasks : List Task := []

namespace Store

/-- The globals of a root. -/
def globals (s : Store) (root : Nat) : Globals := s.roots.getD root default

def setGlobals (s : Store) (root : Nat) (g : Globals) : Store :=
  { s with roots := s.roots.set root g }

/-- Adds a root with these globals. -/
def addRoot (s : Store) (g : Globals) : Env × Store :=
  (.root s.roots.length, { s with roots := s.roots ++ [g] })

theorem globals_setGlobals {s : Store} {root : Nat} (g : Globals) (k : Nat)
    (h : root < s.roots.length) :
    (s.setGlobals root g).globals k = if root = k then g else s.globals k := by
  simp only [globals, setGlobals, List.getD_eq_getElem?_getD, List.getElem?_set]
  by_cases hk : root = k
  · subst hk; simp [h]
  · simp [hk]

end Store

/-- What an evaluation may ask of the store. -/
inductive Request where
  | lookup (root : Nat) (symbol : Symbol)
  | define (root : Nat) (symbol : Symbol) (value : Value)
  | freshId
  | spawn (task : Task)

/-- The type of the answer to a request. -/
abbrev Request.Answer : Request → Type
  | lookup _ _ => Except Error Value
  | define _ _ _ => Except Error Unit
  | freshId => Nat
  | spawn _ => Unit

/-- Answers a request from a store. A definition that fails leaves the store alone. -/
def Store.answer (s : Store) : (r : Request) → r.Answer × Store
  | .lookup root symbol => ((s.globals root).lookup symbol, s)
  | .define root symbol value => match (s.globals root).define symbol value with
    | .ok g => (.ok (), s.setGlobals root g)
    | .error e => (.error e, s)
  | .freshId => (s.nextId, { s with nextId := s.nextId + 1 })
  | .spawn task => ((), { s with tasks := task :: s.tasks })

/-- Monads in which evaluations run: they answer requests, and an evaluation can fail in them. -/
class MonadStore (m : Type → Type) extends Monad m where
  request : (r : Request) → m r.Answer
  fail : {α : Type} → Error → m α

export MonadStore (request fail)

/-- Evaluation over a store, one request after the other. The store survives a failure. -/
abbrev Run := EStateM Error Store

instance : MonadStore Run where
  request r := fun s => match s.answer r with
    | (a, s) => .ok a s
  fail e := throw e

section

variable {m : Type → Type} [MonadStore m]

/-- The value of a result, or its error. -/
def ofExcept {α : Type} : Except Error α → m α
  | .ok a => pure a
  | .error e => fail e

/-- Looks a symbol up from an environment. Only the globals need the store. -/
def Env.lookupM (env : Env) (s : Symbol) : m (Except Error Value) :=
  match s.space, env.find? s.base with
  | none, some v => pure (.ok v)
  | _, _ => request (.lookup env.rootId s)

end

/-- Over a store, lookup is lookup in the globals of the root. -/
theorem Env.lookupM_eq (env : Env) (symbol : Symbol) (s : Store) :
    (env.lookupM symbol : Run (Except Error Value)) s =
      .ok (env.lookup (s.globals env.rootId) symbol) s := by
  unfold Env.lookupM Env.lookup
  cases symbol.space <;> cases env.find? symbol.base <;> rfl

end LispCore
