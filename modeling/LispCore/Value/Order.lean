import LispCore.Error
import LispCore.Value

/-!
# The order of values

Integers, floats, strings, characters and booleans are ordered within their own type. Any other
two values can be compared only when they are equal.
-/

namespace LispCore.Value

def compare (a b : Value) : Except Error Ordering :=
  match a, b with
  | .int x, .int y => .ok (Ord.compare x.toInt y.toInt)
  | .float x, .float y => match x.compare? y with
    | some o => .ok o
    | none => .error (.incomparable a.typeName b.typeName)
  | .str x, .str y => .ok (Ord.compare x y)
  | .char x, .char y => .ok (Ord.compare x.toNat y.toNat)
  | .bool x, .bool y => .ok (Ord.compare x.toNat y.toNat)
  | _, _ => if a == b then .ok .eq else .error (.incomparable a.typeName b.typeName)

end LispCore.Value
