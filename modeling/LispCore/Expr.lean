import LispCore.Value.Printer

/-!
# Building expressions

Constructors for those who assemble expressions themselves instead of analyzing forms.
-/

namespace LispCore.Expr

/-- The name under which a call of this target reports errors. -/
def targetName : Expr → String
  | .resolve s => s.text
  | .const v => v.display
  | .quote v => v.display
  | _ => "<expr>"

/-- A call that is named after its target. -/
def call (target : Expr) (args : List Expr) : Expr := .invoke target.targetName target args

/-- A test with an optional second branch. -/
def ifElse (test yes : Expr) (no : Option Expr) : Expr := .cond (some test) (some yes) no

end LispCore.Expr
