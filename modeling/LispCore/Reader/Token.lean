import LispCore.Double.Rounding
import LispCore.Value

/-!
# Tokens

`Lexer.run` cuts a text into tokens with a machine that reads one character at a time: its state
is the token begun so far and the tokens already complete. A faulty literal becomes a `fault`
token, so that whoever consumes the tokens meets the faults of a text in the order in which they
stand there.
-/

namespace LispCore

inductive Bracket where
  | round
  | square
  deriving DecidableEq, Repr

def Bracket.close : Bracket → Char
  | round => ')'
  | square => ']'

/-- Why a text cannot be read. -/
inductive ReadError where
  | unexpectedClose (b : Bracket)
  | unterminatedCollection (expected : Bracket)
  | unterminatedString
  | quoteNeedsForm
  | emptyCharacter
  deriving DecidableEq, Repr

def ReadError.message : ReadError → String
  | unexpectedClose b => "unexpected '" ++ b.close.toString ++ "'"
  | unterminatedCollection b =>
    "unterminated collection, expected '" ++ b.close.toString ++ "'"
  | unterminatedString => "unterminated string"
  | quoteNeedsForm => "quote needs a form"
  | emptyCharacter => "character literal"

inductive Token where
  | opening (b : Bracket)
  | closing (b : Bracket)
  /-- The quote mark, which applies to the next form. -/
  | quoteMark
  | atom (v : Value)
  | fault (e : ReadError)

namespace Token

/-- A float literal is a decimal with a point. -/
def float? (cs : List Char) : Option Double :=
  if cs.contains '.' then Double.parse? cs else none

/-- The value of a bare word. -/
def ofWord (cs : List Char) : Value :=
  let word := String.ofList cs
  if word = "nil" then .nil
  else if word = "true" then .bool true
  else if word = "false" then .bool false
  else match Numeral.int64? cs with
    | some n => .int n
    | none => match float? cs with
      | some x => .float x
      | none => match cs with
        | ':' :: name => .keyword (Keyword.parse (String.ofList name))
        | _ => .symbol (Symbol.parse word)

/-- The character that a backslash and the word after it stand for: a named one, or else the first
of the word. -/
def ofCharName (cs : List Char) : Token :=
  let word := String.ofList cs
  if word = "newline" then .atom (.char '\n')
  else if word = "space" then .atom (.char ' ')
  else if word = "tab" then .atom (.char '\t')
  else match cs with
    | c :: _ => .atom (.char c)
    | [] => .fault .emptyCharacter

end Token

/-- Characters that end a bare word. -/
def Text.isDelimiter (c : Char) : Bool :=
  isBlank c || "()[],;\"".toList.contains c

namespace Lexer

/-- The token that is being read, its characters last first. -/
inductive Mode where
  | between
  | comment
  | word (seen : List Char)
  | charName (seen : List Char)
  | string (seen : List Char)
  | escape (seen : List Char)

structure State where
  mode : Mode := .between
  /-- The tokens read, last first. -/
  tokens : List Token := []

/-- Reads the first character of whatever comes next. -/
def start (tokens : List Token) (c : Char) : State :=
  if Text.isBlank c || c = ',' then ⟨.between, tokens⟩
  else if c = ';' then ⟨.comment, tokens⟩
  else if c = '(' then ⟨.between, .opening .round :: tokens⟩
  else if c = '[' then ⟨.between, .opening .square :: tokens⟩
  else if c = ')' then ⟨.between, .closing .round :: tokens⟩
  else if c = ']' then ⟨.between, .closing .square :: tokens⟩
  else if c = '\'' then ⟨.between, .quoteMark :: tokens⟩
  else if c = '"' then ⟨.string [], tokens⟩
  else if c = '\\' then ⟨.charName [], tokens⟩
  else ⟨.word [c], tokens⟩

/-- The character that an escape in a string stands for. -/
def unescape : Char → Char
  | 'n' => '\n'
  | 't' => '\t'
  | c => c

def step (s : State) (c : Char) : State :=
  match s.mode with
  | .between => start s.tokens c
  | .comment => ⟨if c = '\n' then .between else .comment, s.tokens⟩
  | .word seen =>
    if Text.isDelimiter c then start (.atom (Token.ofWord seen.reverse) :: s.tokens) c
    else ⟨.word (c :: seen), s.tokens⟩
  | .charName seen =>
    if Text.isDelimiter c then start (Token.ofCharName seen.reverse :: s.tokens) c
    else ⟨.charName (c :: seen), s.tokens⟩
  | .string seen =>
    if c = '"' then ⟨.between, .atom (.str (String.ofList seen.reverse)) :: s.tokens⟩
    else if c = '\\' then ⟨.escape seen, s.tokens⟩
    else ⟨.string (c :: seen), s.tokens⟩
  | .escape seen => ⟨.string (unescape c :: seen), s.tokens⟩

/-- Completes what is being read when the text ends. -/
def finish (s : State) : List Token :=
  match s.mode with
  | .between => s.tokens
  | .comment => s.tokens
  | .word seen => .atom (Token.ofWord seen.reverse) :: s.tokens
  | .charName seen => Token.ofCharName seen.reverse :: s.tokens
  | .string _ => .fault .unterminatedString :: s.tokens
  | .escape _ => .fault .unterminatedString :: s.tokens

/-- The tokens of a text. -/
def run (cs : List Char) : List Token :=
  (finish (cs.foldl step {})).reverse

end Lexer

end LispCore
