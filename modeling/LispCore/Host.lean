import LispCore.Error
import LispCore.Value.Printer

/-!
# The host

A `Host` gives a function to every name under which native function values ask for one. Such a
function sees its arguments and the depth of the evaluation that calls it. It answers with a result,
or calls a value and goes on with what the call returns; a call that fails ends it with the same
error. It keeps no state of its own, and it has no access to the store other than through the
functions that it calls.
-/

namespace LispCore

/-- The nesting of analyses and evaluations at a point, and its limit. -/
structure Context where
  depth : Nat
  limit : Nat
  deriving DecidableEq, Repr

/-- How many more levels may be entered. -/
def Context.left (c : Context) : Nat := c.limit - c.depth

/-- What host functions use up when they call each other. Calls of closures are bounded by the limit
on nesting and use up nothing. -/
noncomputable def Value.callSize (f : Value) (args : List Value) : Nat :=
  match f with
  | .fn _ => 0
  | _ => sizeOf args + 1

theorem Value.callSize_le (f : Value) {xs : List Value} {n : Nat} (h : sizeOf xs < n) :
    f.callSize xs ≤ n := by
  unfold callSize
  split <;> omega

/-- What a host function does with its arguments. It may call a closure with any arguments, and
other values with arguments smaller than its own, so a chain of such calls ends. -/
inductive Reply (args : List Value) where
  | done (result : Except Error Value)
  | call (f : Value) (xs : List Value) (bounded : f.callSize xs ≤ sizeOf args)
    (next : Value → Reply args)

/-- The functions behind native function values, by name. -/
abbrev Host := String → Context → (args : List Value) → Reply args

end LispCore
