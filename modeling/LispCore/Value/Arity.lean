import LispCore.Value

/-!
# Arities

Which argument counts a parameter list accepts, and how the accepted counts are named in error
messages.
-/

namespace LispCore

namespace Arity

variable {β : Type}

/-- The number of positional parameters. -/
def required (a : Arity β) : Nat :=
  if a.variadic then a.params.length - 1 else a.params.length

/-- A variadic arity takes any number of surplus arguments, another one none. -/
def accepts (a : Arity β) (argc : Nat) : Bool :=
  if a.variadic then a.required ≤ argc else argc == a.params.length

/-- The accepted counts of one arity. -/
def countText (a : Arity β) : String :=
  toString a.required ++ if a.variadic then "+" else ""

/-- The description of a parameter list, its body left out. -/
def describe (a : Arity β) : String :=
  "FnArity \x7b params: [" ++ ", ".intercalate (a.params.map Symbol.describe) ++ "], variadic: "
    ++ (if a.variadic then "true" else "false") ++ ", .. \x7d"

end Arity

/-- Joins the items by commas, the last one by "or". -/
def joinOr : List String → String
  | [] => "none"
  | [a] => a
  | [a, b] => a ++ " or " ++ b
  | a :: rest => a ++ ", " ++ joinOr rest

end LispCore
