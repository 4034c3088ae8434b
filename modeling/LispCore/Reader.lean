import LispCore.Reader.Token

/-!
# The reader

`read` turns a text into the forms written in it. The tokens are consumed one at a time over a
stack of the collections and quote marks that are still open.
-/

namespace LispCore

namespace Reader

/-- A form that has begun: a quote mark, or a bracket with the items so far, last first. -/
inductive Pending where
  | quoteMark
  | collection (b : Bracket) (items : List Value)

structure State where
  stack : List Pending := []
  /-- The forms read at top level, last first. -/
  forms : List Value := []

/-- `'x` stands for `(quote x)`. -/
def quoteForm (v : Value) : Value := .list [.symbol (Symbol.ofBase "quote"), v]

/-- Adds a complete form to what is open around it. -/
def push (forms : List Value) : List Pending → Value → State
  | [], v => ⟨[], v :: forms⟩
  | .quoteMark :: stack, v => push forms stack (quoteForm v)
  | .collection b items :: stack, v => ⟨.collection b (v :: items) :: stack, forms⟩

def collect (b : Bracket) (items : List Value) : Value :=
  match b with
  | .round => .list items.reverse
  | .square => .vector items.reverse

def step (s : State) : Token → Except ReadError State
  | .opening b => .ok { s with stack := .collection b [] :: s.stack }
  | .quoteMark => .ok { s with stack := .quoteMark :: s.stack }
  | .atom v => .ok (push s.forms s.stack v)
  | .fault e => .error e
  | .closing b => match s.stack with
    | .collection b' items :: stack =>
      if b = b' then .ok (push s.forms stack (collect b items)) else .error (.unexpectedClose b)
    | _ => .error (.unexpectedClose b)

/-- The forms, if nothing is left open. -/
def finish (s : State) : Except ReadError (List Value) :=
  match s.stack with
  | [] => .ok s.forms.reverse
  | .quoteMark :: _ => .error .quoteNeedsForm
  | .collection b _ :: _ => .error (.unterminatedCollection b)

def ofTokens (tokens : List Token) : Except ReadError (List Value) := do
  finish (← tokens.foldlM step {})

end Reader

/-- Reads every form of a text. -/
def read (text : String) : Except ReadError (List Value) :=
  Reader.ofTokens (Lexer.run text.toList)

end LispCore
