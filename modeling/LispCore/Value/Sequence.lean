import LispCore.Value.Printer

/-!
# Lists and vectors as sequences

Both are sequences of values; they differ in where `conj` adds and in that only vectors are
updated by position.
-/

namespace LispCore

/-- A list or a vector. -/
inductive Collection where
  | list (items : List Value)
  | vector (items : List Value)

namespace Collection

def items : Collection → List Value
  | list xs => xs
  | vector xs => xs

def toValue : Collection → Value
  | list xs => .list xs
  | vector xs => .vector xs

def ofValue? : Value → Option Collection
  | .list xs => some (list xs)
  | .vector xs => some (vector xs)
  | _ => none

/-- The printed items between brackets, separated by commas. -/
def describe (c : Collection) : String :=
  "[" ++ ", ".intercalate (c.items.map Value.display) ++ "]"

/-- Everything after the first item; empty when there is none. -/
def rest : Collection → Collection
  | list xs => list xs.tail
  | vector xs => vector xs.tail

/-- Adds items where the collection grows: one by one at the front of a list, in order at the end
of a vector. -/
def conj (c : Collection) (new : List Value) : Collection :=
  match c with
  | list xs => list (new.foldl (fun acc v => v :: acc) xs)
  | vector xs => vector (xs ++ new)

/-- Replaces the entry of a vector at `i`, or adds one when `i` is the length. Lists have no
entries to replace. -/
def assoc? (c : Collection) (i : Nat) (v : Value) : Option Collection :=
  match c with
  | list _ => none
  | vector xs =>
    if i < xs.length then some (vector (xs.set i v))
    else if i = xs.length then some (vector (xs ++ [v]))
    else none

/-- Drops the last entry of a vector. -/
def pop? : Collection → Option Collection
  | list _ => none
  | vector xs => if xs.isEmpty then none else some (vector xs.dropLast)

end Collection

end LispCore
