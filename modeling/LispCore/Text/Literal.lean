import LispCore.Text.Invisible

/-!
# String literals

`quoted` is how a string value is written in source text: between double quotes, with an escape
for newline, tab, carriage return, backslash and double quote, and every other character as it is.
`visible` is how a name is listed in a description of an environment or of a special-form table:
characters that have no visible form of their own are written by code point there.
-/

namespace LispCore.Text

/-- The escape of one character inside a string literal. -/
def escape : Char → List Char
  | '\n' => ['\\', 'n']
  | '\t' => ['\\', 't']
  | '\r' => ['\\', 'r']
  | '\\' => ['\\', '\\']
  | '"' => ['\\', '"']
  | c => [c]

/-- The literal of a string, followed by `rest`. -/
def quotedOnto (cs rest : List Char) : List Char :=
  '"' :: cs.foldr (fun c r => escape c ++ r) ('"' :: rest)

/-- The literal of a string. -/
def quoted (s : String) : String :=
  String.ofList (quotedOnto s.toList [])

/-- The code point of `c` between braces, in hexadecimal. -/
def codePoint (c : Char) : List Char :=
  '\\' :: 'u' :: '\x7b' :: (Nat.toDigits 16 c.toNat ++ ['\x7d'])

/-- One character of a listed name. -/
def showVisible : Char → List Char
  | '\n' => ['\\', 'n']
  | '\t' => ['\\', 't']
  | '\r' => ['\\', 'r']
  | '\\' => ['\\', '\\']
  | '"' => ['\\', '"']
  | c =>
    if c.toNat = 0 then ['\\', '0'] else if isInvisible c then codePoint c else [c]

/-- A name as it is listed in descriptions. -/
def visible (s : String) : String :=
  String.ofList ('"' :: s.toList.flatMap showVisible ++ ['"'])

/-- Names listed between brackets. -/
def visibleList (names : List String) : String :=
  "[" ++ ", ".intercalate (names.map visible) ++ "]"

end LispCore.Text
