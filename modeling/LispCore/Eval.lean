import LispCore.Closure
import LispCore.Host
import LispCore.Store
import LispCore.Value.Sequence

/-!
# Evaluation

`evalNode` and `apply` evaluate one node and one call, given a `Level`: the host, the depth
reached, and evaluation one level deeper. `eval` ties the knot by recursion on the number of
levels that are left under the limit; when none is left it fails, so every evaluation ends.
-/

namespace LispCore

variable {m : Type → Type}

/-- What a node needs to be evaluated at some depth. -/
structure Level (m : Type → Type) where
  host : Host
  context : Context
  /-- Evaluation one level deeper. -/
  eval : Env → Expr → m Value

variable [MonadStore m]

/-- Follows a reply to its end, given how its calls are made. -/
def Reply.follow {args : List Value}
    (call : (f : Value) → (xs : List Value) → f.callSize xs ≤ sizeOf args → m Value) :
    Reply args → m Value
  | .done r => ofExcept r
  | .call f xs bounded next => do (next (← call f xs bounded)).follow call

namespace Level

/-- Calls a closure: its body is evaluated in the frame of the call. -/
def applyClosure (lv : Level m) (f : Closure) (args : List Value) : m Value :=
  match f.enter args with
  | .ok (env, body) => lv.eval env body
  | .error e => fail e

/-- Applies a value to arguments. The functions that a host function calls run at its own depth. -/
def apply (lv : Level m) (f : Value) (args : List Value) : m Value :=
  match f with
  | .fn f => lv.applyClosure f args
  | .native f => match f.function with
    | some name => (lv.host name lv.context args).follow fun g xs _ => lv.apply g xs
    | none => fail (.internal ("native fn " ++ f.name ++ " has no callable"))
  | other => fail (.notInvokable other.display other.typeName)
termination_by f.callSize args
decreasing_by exact Nat.lt_succ_of_le ‹_›

theorem apply_fn (lv : Level m) (f : Closure) (args : List Value) :
    lv.apply (.fn f) args = lv.applyClosure f args := by
  rw [apply]

theorem apply_native (lv : Level m) {f : Native} {name : String} (h : f.function = some name)
    (args : List Value) :
    lv.apply (.native f) args =
      (lv.host name lv.context args).follow fun g xs _ => lv.apply g xs := by
  rw [apply, h]

theorem apply_uncallable (lv : Level m) {f : Native} (h : f.function = none) (args : List Value) :
    lv.apply (.native f) args =
      fail (.internal ("native fn " ++ f.name ++ " has no callable")) := by
  rw [apply, h]

theorem apply_of_not_invokable (lv : Level m) {f : Value} (h : f.isInvokable = false)
    (args : List Value) : lv.apply f args = fail (.notInvokable f.display f.typeName) := by
  rw [apply]
  · rintro g rfl; exact nomatch h
  · rintro g rfl; exact nomatch h

/-- Induction over the calls that host functions make. -/
theorem apply_induction {P : Value → List Value → Prop} (fn : ∀ f args, P (.fn f) args)
    (native : ∀ (f : Native) (name : String) (args : List Value), f.function = some name →
      (∀ (g : Value) (xs : List Value), g.callSize xs ≤ sizeOf args → P g xs) → P (.native f) args)
    (uncallable : ∀ (f : Native) (args : List Value), f.function = none → P (.native f) args)
    (other : ∀ (f : Value) (args : List Value), f.isInvokable = false → P f args)
    (f : Value) (args : List Value) : P f args := by
  induction hsize : f.callSize args using Nat.strongRecOn generalizing f args with
  | ind n ih =>
    cases f with
    | fn f => exact fn f args
    | native f =>
      cases hname : f.function with
      | none => exact uncallable f args hname
      | some name =>
        refine native f name args hname fun g xs hbounded => ih _ ?_ g xs rfl
        rw [← hsize]
        exact Nat.lt_succ_of_le hbounded
    | _ => exact other _ args rfl

/-- An absent expression is worth nil. -/
def evalOption (lv : Level m) (env : Env) : Option Expr → m Value
  | some e => lv.eval env e
  | none => pure .nil

/-- Puts a value into a vector literal. An item that equals its value stays as it was read, and a
value beyond the last item is added. -/
def refresh (items : List Value) (index : Nat) (v : Value) : Except Error (List Value) :=
  if items[index]?.any (· == v) then .ok items
  else match (Collection.vector items).assoc? index v with
    | some c => .ok c.items
    | none => .error (.internal ("vector literal has no entry " ++ toString index))

/-- The name of the frames in which tasks run. -/
def goFrame : String := "<go>"

/-- Evaluates the node at the top of an expression. -/
def evalNode (lv : Level m) (env : Env) : Expr → m Value
  | .const v => pure v
  | .quote v => pure v
  | .define symbol value => do
    let symbol := symbol.trimmed
    let v ← lv.evalOption env value
    let done ← request (.define env.rootId symbol v)
    match (done : Except Error Unit) with
    | .ok _ => pure (.symbol symbol)
    | .error e => fail e
  | .cond test yes no => do
    let t ← lv.evalOption env test
    lv.evalOption env (if t.isTruthy then yes else no)
  | .block body => body.foldlM (fun _ e => lv.eval env e) .nil
  | .resolve symbol => do ofExcept (← env.lookupM symbol)
  | .invoke name target args => do
    let f ← lv.eval env target
    if f.isInvokable then
      let args ← args.mapM (lv.eval env)
      lv.apply f args
    else
      fail (.notInvokable name f.typeName)
  | .vector items exprs => do
    let items ← exprs.zipIdx.foldlM (fun items (e, index) => do
      ofExcept (refresh items index (← lv.eval env e))) items
    pure (.vector items)
  | .fn name doc isMacro arities => do
    let id ← request .freshId
    pure (.fn (Closure.instantiate id name doc isMacro arities env))
  | .go body policy => do
    request (.spawn { env := env.child goFrame [], body, limit := lv.context.limit, policy })
    pure .nil

end Level

/-- Evaluates an expression with `left` levels left under the limit. -/
def eval (host : Host) (limit : Nat) : (left : Nat) → Env → Expr → m Value
  | 0, _, _ => fail (.depthExceeded limit)
  | left + 1, env, e =>
    Level.evalNode ⟨host, ⟨limit - left, limit⟩, eval host limit left⟩ env e

theorem eval_zero (host : Host) (limit : Nat) (env : Env) (e : Expr) :
    (eval host limit 0 env e : m Value) = fail (.depthExceeded limit) := rfl

theorem eval_succ (host : Host) (limit left : Nat) (env : Env) (e : Expr) :
    (eval host limit (left + 1) env e : m Value) =
      Level.evalNode ⟨host, ⟨limit - left, limit⟩, eval host limit left⟩ env e := rfl

/-- The level at a depth. -/
def Level.ofContext (host : Host) (c : Context) : Level m :=
  ⟨host, c, LispCore.eval host c.limit c.left⟩

/-- Applies a value to arguments at a depth. -/
def apply (host : Host) (c : Context) (f : Value) (args : List Value) : m Value :=
  (Level.ofContext host c).apply f args

end LispCore
