import LispCore.Double
import LispCore.Name

/-!
# Values, environments and expressions

The three types refer to each other: a function value holds the environment it was made in and the
expressions of its bodies, an environment holds values, and an expression holds constants.
Functions, native functions and foreign objects carry an identity `id`, by which they are
compared.

The root of an environment is only a reference: what is bound there is kept by the store that an
evaluation runs over. Frames below the root are plain data, so binding in one handle of a frame
cannot be seen through another.
-/

namespace LispCore

/-- One parameter list of a function with its body. In a variadic one the last parameter takes the
surplus arguments as a list. -/
structure Arity (β : Type) where
  params : List Symbol
  variadic : Bool
  body : β
  deriving Repr

/-- What happens to the outcome of a task started by `go`: it is dropped, or reported to a channel
of whoever configured the analyzer. -/
inductive SpawnPolicy where
  | detach
  | report (channel : Nat)
  deriving DecidableEq, Repr, Inhabited

/-- A function of the host, which knows it under the name `function`. One without such a name cannot
be called. -/
structure Native where
  id : Nat
  name : String
  function : Option String
  deriving Repr

/-- What a foreign object holds. Of an object of some other type only the name of the type is
known. -/
inductive Payload where
  | word (n : UInt32)
  | flag (b : Bool)
  | letter (c : Char)
  | integer (n : Int64)
  | object (typeName : String)
  deriving DecidableEq, Repr

/-- The type name by which programs know a foreign object. -/
def Payload.typeName : Payload → String
  | .word _ => "u32"
  | .flag _ => "bool"
  | .letter _ => "char"
  | .integer _ => "i64"
  | .object typeName => typeName

/-- An object of the host that programs can only pass around. -/
structure Foreign where
  id : Nat
  payload : Payload
  deriving Repr

mutual

inductive Value where
  | nil
  | bool (b : Bool)
  | int (n : Int64)
  | float (x : Double)
  | char (c : Char)
  | str (s : String)
  | symbol (s : Symbol)
  | keyword (k : Keyword)
  | list (items : List Value)
  | vector (items : List Value)
  | fn (f : Closure)
  | native (f : Native)
  | foreign (x : Foreign)

/-- A function or macro made by a program. A value assembled by hand may lack the environment or a
body; calling it is an internal error. -/
structure Closure where
  id : Nat
  name : Option Symbol
  doc : Option String
  isMacro : Bool
  arities : List (Arity (Option Expr))
  env : Option Env

/-- A chain of frames that ends in a root. -/
inductive Env where
  | root (id : Nat)
  | frame (name : String) (vars : List (String × Value)) (parent : Env)

inductive Expr where
  | const (v : Value)
  | quote (v : Value)
  /-- Binds a global. -/
  | define (symbol : Symbol) (value : Option Expr)
  | cond (test yes no : Option Expr)
  /-- Evaluates in order; the last value is the answer. -/
  | block (body : List Expr)
  | resolve (symbol : Symbol)
  /-- A call. `name` is the printed target, for error messages. -/
  | invoke (name : String) (target : Expr) (args : List Expr)
  /-- A vector literal: the items as read, and one expression for each. -/
  | vector (items : List Value) (exprs : List Expr)
  | fn (name : Option Symbol) (doc : Option String) (isMacro : Bool) (arities : List (Arity Expr))
  /-- Starts a task of its own. -/
  | go (body : Expr) (policy : SpawnPolicy)

end

instance : Inhabited Value := ⟨.nil⟩

instance : Inhabited Env := ⟨.root 0⟩

namespace Value

/-- Induction over the nesting of collections. -/
theorem collection_induction {P : Value → Prop}
    (list : ∀ items, (∀ v ∈ items, P v) → P (.list items))
    (vector : ∀ items, (∀ v ∈ items, P v) → P (.vector items))
    (other : ∀ v, (∀ items, v ≠ .list items) → (∀ items, v ≠ .vector items) → P v) :
    ∀ v, P v
  | .list items => list items fun v _ => collection_induction list vector other v
  | .vector items => vector items fun v _ => collection_induction list vector other v
  | .nil | .bool _ | .int _ | .float _ | .char _ | .str _ | .symbol _ | .keyword _ | .fn _
  | .native _ | .foreign _ => other _ nofun nofun

def ofInt (n : Int) : Value := .int (Int64.ofInt n)

/-- `nil` and `false` count as false in a test, everything else as true. -/
def isTruthy : Value → Bool
  | .nil => false
  | .bool b => b
  | _ => true

def isNil : Value → Bool
  | .nil => true
  | _ => false

def isInvokable : Value → Bool
  | .fn _ => true
  | .native _ => true
  | _ => false

def typeName : Value → String
  | .nil => "nil"
  | .bool _ => "bool"
  | .int _ => "int"
  | .float _ => "float"
  | .char _ => "char"
  | .str _ => "string"
  | .symbol _ => "symbol"
  | .keyword _ => "keyword"
  | .list _ => "list"
  | .vector _ => "vector"
  | .fn f => if f.isMacro then "macro" else "fn"
  | .native _ => "native-fn"
  | .foreign x => x.payload.typeName

mutual

/-- Equality of values: of one type, numbers as numbers, collections member by member, and
functions and foreign objects by identity. -/
def beq : Value → Value → Bool
  | .nil, .nil => true
  | .bool a, .bool b => a == b
  | .int a, .int b => a == b
  | .float a, .float b => a == b
  | .char a, .char b => a == b
  | .str a, .str b => a == b
  | .symbol a, .symbol b => a == b
  | .keyword a, .keyword b => a == b
  | .list xs, .list ys => allBeq xs ys
  | .vector xs, .vector ys => allBeq xs ys
  | .fn f, .fn g => f.id == g.id
  | .native f, .native g => f.id == g.id
  | .foreign x, .foreign y => x.id == y.id
  | _, _ => false

def allBeq : List Value → List Value → Bool
  | [], [] => true
  | x :: xs, y :: ys => beq x y && allBeq xs ys
  | _, _ => false

end

instance : BEq Value := ⟨beq⟩

end Value

end LispCore
