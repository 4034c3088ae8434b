/-!
# Errors

`Error` lists what can go wrong while a form is analyzed or evaluated, `Error.message` is the one
place that words it. `FormFault` lists the ways in which a special form can be malformed.
-/

namespace LispCore

inductive Error where
  /-- A symbol is bound in no frame up to and including the root. -/
  | notFound (name : String)
  | namespaceNotFound (namespaceName : String)
  /-- A name to be bound is blank. -/
  | invalidName (name : String)
  | notInvokable (target typeName : String)
  /-- No arity of a function accepts the number of arguments. -/
  | arity (name expected : String) (got : Nat)
  | specialForm (form fault : String)
  | incomparable (left right : String)
  /-- Analysis or evaluation is nested deeper than the limit. -/
  | depthExceeded (limit : Nat)
  /-- Expansion of a macro call kept producing macro calls. -/
  | expansionLimit (form : String) (limit : Nat)
  | spawn (reason : String)
  /-- Raised by a native function. -/
  | eval (reason : String)
  /-- A value is not what the evaluator builds itself. -/
  | internal (reason : String)
  deriving DecidableEq, Repr, Inhabited

namespace Error

def message : Error → String
  | notFound name => "Unable to resolve symbol: " ++ name
  | namespaceNotFound name => "No such namespace: " ++ name
  | invalidName name => "Invalid binding name: '" ++ name ++ "'"
  | notInvokable target typeName =>
    "Cannot invoke '" ++ target ++ "': value of type '" ++ typeName ++ "' is not invokable"
  | arity name expected got =>
    "Wrong number of arguments (" ++ toString got ++ ") passed to '" ++ name ++ "': expected "
      ++ expected
  | specialForm form fault => "Invalid '" ++ form ++ "' form: " ++ fault
  | incomparable left right => "Cannot compare " ++ left ++ " with " ++ right
  | depthExceeded limit =>
    "Stack overflow: maximum eval depth (" ++ toString limit ++ ") exceeded"
  | expansionLimit form limit =>
    "Macro expansion of " ++ form ++ " did not settle within " ++ toString limit ++ " steps"
  | spawn reason => "Unable to spawn go task: " ++ reason
  | eval reason => reason
  | internal reason => "Internal error: " ++ reason

/-- A lookup failed, for want of the name or of its namespace. -/
def isNotFound : Error → Bool
  | notFound _ => true
  | namespaceNotFound _ => true
  | _ => false

end Error

/-- What is wrong with a special form. The texts are the printed forms found in its place. -/
inductive FormFault where
  | count (least most got : Nat)
  | targetNotSymbol (found : String)
  | noParameters
  | notArityList (found : String)
  | arityListHead (found : String)
  | notParameter (found : String)
  | restCount
  | restMarkerTwice
  deriving DecidableEq, Repr

namespace FormFault

/-- The numbers of arguments from `least` to `most`, as the message names them. -/
def expectedCount (least most : Nat) : String :=
  let counts :=
    if least = most then "exactly " ++ toString least
    else toString least ++ " or " ++ toString most
  counts ++ if most = 1 then " argument" else " arguments"

def message : FormFault → String
  | count least most got => "requires " ++ expectedCount least most ++ ", got " ++ toString got
  | targetNotSymbol found => "first argument must be a symbol, not '" ++ found ++ "'"
  | noParameters => "requires a parameter vector"
  | notArityList found => "expected a parameter vector or arity list, got '" ++ found ++ "'"
  | arityListHead found => "arity list must start with a parameter vector, got '" ++ found ++ "'"
  | notParameter found => "parameter must be an unqualified symbol, not '" ++ found ++ "'"
  | restCount => "'&' must be followed by exactly one parameter"
  | restMarkerTwice => "'&' must be followed by a parameter"

/-- The fault as an error of the form that has it. -/
def error (fault : FormFault) (form : String) : Error := .specialForm form fault.message

end FormFault

end LispCore
