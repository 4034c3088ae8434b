import LispCore.Env
import LispCore.Value.Arity

/-!
# Closures

A call of a closure takes the first arity that accepts its arguments. `Closure.enter` gives the
frame of the call, a child of the environment in which the closure was made, and the body to
evaluate in it.
-/

namespace LispCore.Closure

/-- The function that an expression makes in an environment. -/
def instantiate (id : Nat) (name : Option Symbol) (doc : Option String) (isMacro : Bool)
    (arities : List (Arity Expr)) (env : Env) : Closure where
  id
  name
  doc
  isMacro
  arities := arities.map fun a => { a with body := some a.body }
  env := some env

/-- The first arity that accepts the number of arguments. -/
def findArity? (f : Closure) (argc : Nat) : Option (Arity (Option Expr)) :=
  f.arities.find? (·.accepts argc)

/-- The place of that arity among the arities. -/
def arityIndex? (f : Closure) (argc : Nat) : Option Nat :=
  f.arities.findIdx? (·.accepts argc)

/-- The accepted argument counts, in the order of the arities. -/
def aritySummary (f : Closure) : String := joinOr (f.arities.map Arity.countText)

/-- The name of the frames of functions without a name. -/
def anonymous : String := "<fn>"

/-- The name of the frames in which bodies run. -/
def frameName (f : Closure) : String := (f.name.map (·.base)).getD anonymous

/-- The value of the parameter that takes the surplus arguments. -/
def restValue : List Value → Value
  | [] => .nil
  | vs => .list vs

/-- What a call binds, in order: the function's own name, the positional parameters, and the rest
parameter. Of two bindings of one name the later one counts. -/
def arguments (f : Closure) (a : Arity (Option Expr)) (args : List Value) : List (String × Value) :=
  let own := f.name.toList.map fun s => (s.base, Value.fn f)
  let positional := (a.params.take a.required).zip args |>.map fun (p, v) => (p.base, v)
  let rest := if a.variadic then a.params.drop a.required |>.head?.toList.map fun p =>
    (p.base, restValue (args.drop a.required)) else []
  own ++ positional ++ rest

/-- The bindings of a call frame; it fails on a blank name. -/
def bindAll (pairs : List (String × Value)) : Except Error (Bindings Value) :=
  pairs.foldlM (fun vars (name, v) => do return Bindings.insert (← bindingName name) v vars) []

/-- The frame and the body of a call. -/
def enter (f : Closure) (args : List Value) : Except Error (Env × Expr) :=
  match f.findArity? args.length with
  | none =>
    .error (.arity ((f.name.map (·.text)).getD anonymous) f.aritySummary args.length)
  | some a => match f.env, a.body with
    | none, _ => .error (.internal "function environment is not an Env")
    | some _, none => .error (.internal "function body is not an Expr")
    | some env, some body => do
      return (env.child f.frameName (← bindAll (f.arguments a args)), body)

end LispCore.Closure
