import LispCore.Double.Shortest
import LispCore.Text.Literal
import LispCore.Value

/-!
# Printed values

`Value.printOnto v rest` is the printed form of `v` followed by `rest`; `Value.display` is the
printed form alone. What the reader can read is printed the way the reader reads it.
-/

namespace LispCore

/-- A character literal: a few blank characters are written by name. -/
def Text.charLiteral : Char → List Char
  | '\n' => "\\newline".toList
  | ' ' => "\\space".toList
  | '\t' => "\\tab".toList
  | '\r' => "\\return".toList
  | c => ['\\', c]

def Closure.kind (f : Closure) : String := if f.isMacro then "macro" else "fn"

/-- The printed form of a function tells its kind and its name. -/
def Closure.display (f : Closure) : String :=
  match f.name with
  | some name => "#<" ++ f.kind ++ " " ++ name.text ++ ">"
  | none => "#<" ++ f.kind ++ ">"

def Native.display (f : Native) : String := "#<native-fn " ++ f.name ++ ">"

def Foreign.display (x : Foreign) : String := "#<host " ++ x.payload.typeName ++ ">"

namespace Value

mutual

def printOnto : Value → List Char → List Char
  | .nil, rest => "nil".toList ++ rest
  | .bool b, rest => (if b then "true" else "false").toList ++ rest
  | .int n, rest => (toString n.toInt).toList ++ rest
  | .float x, rest => x.display ++ rest
  | .char c, rest => Text.charLiteral c ++ rest
  | .str s, rest => Text.quotedOnto s.toList rest
  | .symbol s, rest => s.text.toList ++ rest
  | .keyword k, rest => k.display.toList ++ rest
  | .list items, rest => '(' :: printAllOnto items (')' :: rest)
  | .vector items, rest => '[' :: printAllOnto items (']' :: rest)
  | .fn f, rest => f.display.toList ++ rest
  | .native f, rest => f.display.toList ++ rest
  | .foreign x, rest => x.display.toList ++ rest

/-- The printed forms with one space between them. -/
def printAllOnto : List Value → List Char → List Char
  | [], rest => rest
  | [v], rest => printOnto v rest
  | v :: w :: vs, rest => printOnto v (' ' :: printAllOnto (w :: vs) rest)

end

/-- The printed form. -/
def display (v : Value) : String := String.ofList (v.printOnto [])

end Value

end LispCore
