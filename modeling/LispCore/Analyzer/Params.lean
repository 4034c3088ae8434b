import LispCore.Value.Printer
import LispCore.Error

/-!
# Parameter lists and clauses

The shapes of a function definition that can be told without analyzing its bodies: an optional
name, an optional documentation string, then one parameter vector with a body or a list of such
clauses. `&` marks the parameter after it as the one that takes the surplus arguments.
-/

namespace LispCore

namespace Params

def restMarker : String := "&"

/-- A parameter is a symbol without namespace that can be bound. -/
def symbol? (v : Value) : Except FormFault Symbol :=
  match v with
  | .symbol s => if !s.isQualified && s.isValid then .ok s else .error (.notParameter v.display)
  | _ => .error (.notParameter v.display)

/-- The parameter after the marker. -/
def rest : List Value → Except FormFault Symbol
  | [v] => do
    let s ← symbol? v
    if s.base = restMarker then throw .restMarkerTwice else return s
  | _ => .error .restCount

/-- The parameters of a parameter vector, and whether the last one takes the surplus arguments. -/
def parse : List Value → Except FormFault (List Symbol × Bool)
  | [] => .ok ([], false)
  | v :: vs => do
    let s ← symbol? v
    if s.base = restMarker then return ([← rest vs], true)
    else
      let (params, variadic) ← parse vs
      return (s :: params, variadic)

end Params

/-- A parameter vector with the forms of its body. -/
structure Clause where
  params : List Value
  body : List Value

namespace Clause

/-- A clause written as a list. -/
def ofForm (form : Value) : Except FormFault Clause :=
  match form with
  | .list (.vector params :: body) => .ok ⟨params, body⟩
  | .list _ => .error (.arityListHead form.display)
  | _ => .error (.notArityList form.display)

end Clause

/-- The parts of a function definition, its clauses not looked into. -/
structure FnForm where
  name : Option Symbol
  doc : Option String
  clauses : List Value

namespace FnForm

/-- Takes a leading symbol as the name. -/
def takeName : List Value → Option Symbol × List Value
  | .symbol s :: rest => (some s, rest)
  | forms => (none, forms)

/-- Takes a leading string as the documentation, unless nothing follows it. -/
def takeDoc : List Value → Option String × List Value
  | .str s :: v :: rest => (some s, v :: rest)
  | forms => (none, forms)

/-- Splits the arguments of a definition. A parameter vector in front makes one clause of the
rest. -/
def parse (args : List Value) : Except FormFault FnForm :=
  let (name, rest) := takeName args
  let (doc, rest) := takeDoc rest
  match rest with
  | [] => .error .noParameters
  | .vector params :: body => .ok ⟨name, doc, [.list (.vector params :: body)]⟩
  | clauses => .ok ⟨name, doc, clauses⟩

end FnForm

end LispCore
