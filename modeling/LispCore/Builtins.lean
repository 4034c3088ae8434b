import LispCore.Host
import LispCore.Value.Order
import LispCore.Value.Sequence

/-!
# Builtin functions

The host functions that come with an interpreter. `standardHost` knows each under its name;
`Builtin.standard` lists those that an interpreter offers from the start.
-/

namespace LispCore

inductive Builtin where
  | add | sub | less | equal | list | vector | str
  | apply | first | rest | cons | conj | count | nth | assoc | compare | typeName | throw
  | depth | limit | echo
  deriving DecidableEq, Repr

namespace Builtin

/-- The name in error messages, by which the host knows the function. It is also the usual global
name. -/
def name : Builtin → String
  | add => "+"
  | sub => "-"
  | less => "<"
  | equal => "="
  | list => "list"
  | vector => "vector"
  | str => "str"
  | apply => "apply"
  | first => "first"
  | rest => "rest"
  | cons => "cons"
  | conj => "conj"
  | count => "count"
  | nth => "nth"
  | assoc => "assoc"
  | compare => "compare"
  | typeName => "type"
  | throw => "throw"
  | depth => "depth"
  | limit => "limit"
  | echo => "echo"

/-- The builtins that compute: arithmetic, comparison, collections and text. -/
def basic : List Builtin := [add, sub, less, equal, list, vector, str]

/-- The builtins that an interpreter starts with, in the order in which they are bound. -/
def standard : List Builtin :=
  basic ++ [apply, first, rest, cons, conj, count, nth, assoc, compare, typeName, throw, depth,
    limit]

def all : List Builtin := standard ++ [echo]

def ofName? (name : String) : Option Builtin := all.find? (·.name == name)

end Builtin

/-- The arguments of a builtin that takes integers. -/
def Builtin.intArgs (b : Builtin) : List Value → Except Error (List Int64)
  | [] => .ok []
  | .int n :: args => do return n :: (← b.intArgs args)
  | other :: _ => .error (.eval (b.name ++ ": expected int, got " ++ other.typeName))

def Builtin.badArguments (b : Builtin) : Except Error Value :=
  .error (.eval (b.name ++ ": bad arguments"))

/-- Text for concatenation: strings without quotes, nothing for nil. -/
def Value.plainText : Value → String
  | .str s => s
  | .nil => ""
  | other => other.display

/-- A position in a vector. -/
def Value.index? : Value → Option Nat
  | .int n => if 0 ≤ n.toInt then some n.toInt.toNat else none
  | _ => none

/-- An ordering as a number below, at or above zero. -/
def Value.ofOrdering : Ordering → Value
  | .lt => .int (-1)
  | .eq => .int 0
  | .gt => .int 1

/-- The builtins that do not call other functions. -/
def Builtin.run (b : Builtin) (c : Context) (args : List Value) : Except Error Value :=
  match b, args with
  | .add, args => do return .int (← b.intArgs args).sum
  | .sub, args => do
    match (← b.intArgs args) with
    | [] => .error (.eval "-: expected at least one argument")
    | [n] => return .int (-n)
    | n :: others => return .int (n - others.sum)
  | .less, [x, y] => do return .bool ((← x.compare y) == .lt)
  | .less, _ => .error (.eval "<: expected two arguments")
  | .equal, [x, y] => .ok (.bool (x == y))
  | .equal, _ => .error (.eval "=: expected two arguments")
  | .list, args => .ok (.list args)
  | .vector, args => .ok (.vector args)
  | .str, args => .ok (.str (String.join (args.map Value.plainText)))
  | .first, [.nil] => .ok .nil
  | .first, [.list xs] => .ok (xs.headD .nil)
  | .first, [.vector xs] => .ok (xs.headD .nil)
  | .rest, [.nil] => .ok (.list [])
  | .rest, [.list xs] => .ok (Collection.list xs).rest.toValue
  | .rest, [.vector xs] => .ok (Collection.vector xs).rest.toValue
  | .cons, [x, .nil] => .ok (.list [x])
  | .cons, [x, .list xs] => .ok (.list (x :: xs))
  | .conj, .list xs :: new => .ok ((Collection.list xs).conj new).toValue
  | .conj, .vector xs :: new => .ok ((Collection.vector xs).conj new).toValue
  | .count, [.nil] => .ok (.int 0)
  | .count, [.list xs] => .ok (.ofInt xs.length)
  | .count, [.vector xs] => .ok (.ofInt xs.length)
  | .nth, [.vector xs, i] => match i.index?.bind (xs[·]?) with
    | some v => .ok v
    | none => b.badArguments
  | .assoc, [.vector xs, i, v] => match i.index?.bind ((Collection.vector xs).assoc? · v) with
    | some c => .ok c.toValue
    | none => b.badArguments
  | .compare, [x, y] => do return .ofOrdering (← x.compare y)
  | .typeName, [x] => .ok (.str x.typeName)
  | .throw, [.str s] => .error (.eval s)
  | .depth, _ => .ok (.ofInt c.depth)
  | .limit, _ => .ok (.ofInt c.limit)
  | .echo, args => .ok (.vector args)
  | _, _ => b.badArguments

/-- What a builtin does. `apply` calls its first argument and answers what that answers. -/
def Builtin.reply (b : Builtin) (c : Context) (args : List Value) : Reply args :=
  match b, args with
  | .apply, [f, .list xs] => .call f xs (f.callSize_le (by simp +arith)) fun v => .done (.ok v)
  | .apply, [f, .nil] => .call f [] (f.callSize_le (by simp +arith)) fun v => .done (.ok v)
  | b, args => .done (b.run c args)

/-- The host that knows the builtins. -/
def standardHost : Host := fun name c args =>
  match Builtin.ofName? name with
  | some b => b.reply c args
  | none => .done (.error (.eval (name ++ ": unknown function")))

end LispCore
