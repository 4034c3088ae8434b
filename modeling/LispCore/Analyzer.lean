import LispCore.Analyzer.Params
import LispCore.Eval

/-!
# Analysis

An `Analyzer` turns forms into expressions. A form is first expanded until its head is no longer a
macro; then symbols become lookups, lists become special forms or calls, vectors evaluate their
items, and everything else is a constant. Which heads are special is a table of the analyzer.

A host may add special forms of its own. Such a form sees the spawn policy of the analyzer, its
environment and its arguments. It may have forms analyzed where it stands or in frames that shadow
names, as function definitions do, and it builds an expression from what comes of that, or fails. It
does not look at the globals, and it expands macros only as part of an analysis.

Like evaluation, analysis of one form is given what it needs at its level: expansion, which
evaluates the bodies of macros, and analysis one level deeper. `Analyzer.analyze` ties the knot.
-/

namespace LispCore

/-- What a custom special form does: it answers with an expression, fails, or has a form analyzed and
goes on with the outcome. Each of `shadows` is a frame around that form, which binds the name of a
function and parameters. If the analysis fails, so does the special form. -/
inductive Parsing where
  | done (e : Expr)
  | failed (e : Error)
  | analyze (shadows : List (Option Symbol × List Symbol)) (form : Value) (next : Expr → Parsing)

/-- The special forms. A custom one is given the spawn policy, the environment and its arguments. -/
inductive SpecialForm where
  | block
  | cond
  | define
  | function
  | expander
  | quote
  | go
  | custom (parse : SpawnPolicy → Env → List Value → Parsing)

structure Analyzer where
  specials : Bindings SpecialForm
  /-- How many times in a row one form may be expanded. -/
  maxExpansions : Nat
  /-- Given to every task that an analyzed form starts. -/
  spawnPolicy : SpawnPolicy

namespace Analyzer

def defaultMaxExpansions : Nat := 1024

/-- The analyzer without special forms. -/
def bare : Analyzer := ⟨[], defaultMaxExpansions, .detach⟩

/-- The special forms under their usual names. -/
def builtins : List (String × SpecialForm) :=
  [("do", .block), ("if", .cond), ("def", .define), ("fn", .function), ("macro", .expander),
   ("quote", .quote), ("go", .go)]

/-- The analyzer with the usual special forms. -/
def standard : Analyzer := { bare with specials := Bindings.ofPairs builtins }

def withSpecial (a : Analyzer) (name : String) (form : SpecialForm) : Analyzer :=
  { a with specials := a.specials.insert name form }

def withoutSpecial (a : Analyzer) (name : String) : Analyzer :=
  { a with specials := a.specials.erase name }

def isSpecial (a : Analyzer) (name : String) : Bool := a.specials.contains name

def describe (a : Analyzer) : String :=
  let policy := match a.spawnPolicy with
    | .detach => "Detach"
    | .report _ => "Report(Sender \x7b .. \x7d)"
  "Analyzer \x7b specials: " ++ Text.visibleList a.specials.keys ++ ", max_expansions: "
    ++ toString a.maxExpansions ++ ", spawn_policy: " ++ policy ++ " \x7d"

end Analyzer

variable {m : Type → Type} [MonadStore m]

/-! ## Macro expansion -/

namespace Level

/-- The macro that a form calls. A head that cannot be resolved is no macro. -/
def macroOf (env : Env) (form : Value) : m (Option (Closure × List Value)) :=
  match form with
  | .list (.symbol head :: args) => do
    match (← env.lookupM head) with
    | .ok (.fn f) => pure (if f.isMacro then some (f, args) else none)
    | _ => pure none
  | _ => pure none

/-- Expands a form once, if it is a macro call. -/
def expandOnce (lv : Level m) (env : Env) (form : Value) : m (Option Value) := do
  match (← macroOf env form) with
  | some (f, args) => return some (← lv.applyClosure f args)
  | none => return none

/-- Expands `form`, which `source` has become, up to `left` more times. -/
def expandLoop (lv : Level m) (max : Nat) (env : Env) (source : Value) :
    (left : Nat) → (form : Value) → m Value
  | left, form => do
    match (← lv.expandOnce env form) with
    | none => pure form
    | some next => match left with
      | 0 => fail (.expansionLimit source.display max)
      | left + 1 => expandLoop lv max env source left next

/-- Expands a form until its head is no longer a macro. -/
def expand (lv : Level m) (max : Nat) (env : Env) (form : Value) : m Value :=
  lv.expandLoop max env form max form

end Level

/-! ## Forms -/

/-- The result of checking a form, or the fault as an error of that form. -/
def checked {α : Type} (form : String) : Except FormFault α → m α
  | .ok a => pure a
  | .error fault => fail (fault.error form)

/-- Fails unless the number of arguments is between `least` and `most`. -/
def expectCount (form : String) (least most : Nat) (args : List Value) : m Unit :=
  if least ≤ args.length && args.length ≤ most then pure ()
  else fail ((FormFault.count least most args.length).error form)

/-- The frame in which a body is analyzed binds the function's name and the parameters as they are
written, so that a parameter is not taken for a macro of the same name. -/
def shadowFrame (env : Env) (name : Option Symbol) (params : List Symbol) : Env :=
  let names := name.toList.map (·.base) ++ params.map (·.base)
  env.child ((name.map (·.base)).getD Closure.anonymous)
    (Bindings.ofPairs (names.map fun n => (n, Value.nil)))

/-- Such frames one inside the other, each with the name and the parameters that it binds. -/
def shadowFrames (env : Env) (shadows : List (Option Symbol × List Symbol)) : Env :=
  shadows.foldl (fun env (name, params) => shadowFrame env name params) env

/-- Analyzes one clause of a function definition. -/
def analyzeClause (deeper : Env → Value → m Expr) (form : String) (env : Env)
    (name : Option Symbol) (clause : Value) : m (Arity Expr) := do
  let ⟨params, body⟩ ← checked form (Clause.ofForm clause)
  let (params, variadic) ← checked form (Params.parse params)
  let exprs ← body.mapM (deeper (shadowFrame env name params))
  pure { params, variadic, body := .block exprs }

/-- Analyzes a function or macro definition. -/
def analyzeFn (deeper : Env → Value → m Expr) (form : String) (isMacro : Bool) (env : Env)
    (args : List Value) : m Expr := do
  let f ← checked form (FnForm.parse args)
  let arities ← f.clauses.mapM (analyzeClause deeper form env f.name)
  pure (.fn f.name f.doc isMacro arities)

/-- Carries out a custom special form. -/
def Parsing.run (deeper : Env → Value → m Expr) (env : Env) : Parsing → m Expr
  | done e => pure e
  | failed e => fail e
  | analyze shadows form next => do
    (next (← deeper (shadowFrames env shadows) form)).run deeper env

/-- Analyzes a special form from its arguments. -/
def SpecialForm.analyze (deeper : Env → Value → m Expr) (policy : SpawnPolicy) (env : Env)
    (args : List Value) : SpecialForm → m Expr
  | block => do return .block (← args.mapM (deeper env))
  | cond => do
    expectCount "if" 2 3 args
    let exprs ← args.mapM (deeper env)
    pure (.cond exprs[0]? exprs[1]? exprs[2]?)
  | define => do
    expectCount "def" 1 2 args
    match args with
    | .symbol s :: value => do
      let exprs ← value.mapM (deeper env)
      pure (.define s exprs.head?)
    | other :: _ => fail ((FormFault.targetNotSymbol other.display).error "def")
    | [] => fail ((FormFault.count 1 2 0).error "def")
  | function => analyzeFn deeper "fn" false env args
  | expander => analyzeFn deeper "macro" true env args
  | quote => do
    expectCount "quote" 1 1 args
    pure (.quote (args.headD .nil))
  | go => do
    expectCount "go" 1 1 args
    let body ← deeper env (args.headD .nil)
    pure (.go body policy)
  | custom parse => (parse policy env args).run deeper env

namespace Analyzer

/-- The special form that a list with this head is. -/
def special? (a : Analyzer) : Value → Option SpecialForm
  | .symbol s => if s.isQualified then none else a.specials.find? s.base
  | _ => none

theorem exists_name_of_special? {a : Analyzer} {head : Value} {form : SpecialForm}
    (h : a.special? head = some form) : ∃ name, a.specials.find? name = some form := by
  unfold special? at h
  split at h
  · split at h
    · cases h
    · exact ⟨_, h⟩
  · cases h

/-- Analyzes a form, given how to expand it and how to analyze the forms inside it. -/
def analyzeForm (a : Analyzer) (expand : Env → Value → m Value) (deeper : Env → Value → m Expr)
    (env : Env) (form : Value) : m Expr :=
  if form.isNil then pure (.const .nil)
  else do
    match (← expand env form) with
    | .symbol s => pure (.resolve s)
    | .list (head :: args) => match a.special? head with
      | some special => special.analyze deeper a.spawnPolicy env args
      | none => do
        let target ← deeper env head
        let args ← args.mapM (deeper env)
        pure (.invoke head.display target args)
    | .vector (item :: items) => do
      let exprs ← (item :: items).mapM (deeper env)
      pure (.vector (item :: items) exprs)
    | other => pure (.const other)

/-- Analyzes a form with `left` levels left under the limit. -/
def analyze (a : Analyzer) (host : Host) (limit : Nat) : (left : Nat) → Env → Value → m Expr
  | 0, _, _ => fail (.depthExceeded limit)
  | left + 1, env, form =>
    a.analyzeForm (Level.expand ⟨host, ⟨limit - left, limit⟩, eval host limit left⟩ a.maxExpansions)
      (analyze a host limit left) env form

theorem analyze_succ (a : Analyzer) (host : Host) (limit left : Nat) (env : Env) (form : Value) :
    (a.analyze host limit (left + 1) env form : m Expr) =
      a.analyzeForm
        (Level.expand ⟨host, ⟨limit - left, limit⟩, eval host limit left⟩ a.maxExpansions)
        (analyze a host limit left) env form := rfl

/-- Expands a form at a depth until its head is no longer a macro. -/
def expand (a : Analyzer) (host : Host) (c : Context) (env : Env) (form : Value) : m Value :=
  (Level.ofContext host c).expand a.maxExpansions env form

/-- Analyzes a form and evaluates the result in the same environment. -/
def evalTop (a : Analyzer) (host : Host) (c : Context) (env : Env) (form : Value) : m Value := do
  let e ← a.analyze host c.limit c.left env form
  eval host c.limit c.left env e

end Analyzer

end LispCore
