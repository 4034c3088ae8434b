import LispCore.Interpreter

/-!
# What computations keep

A `Realm` is a class of values, environments, expressions and errors that the evaluator does not
leave by itself. A `Judgement` is about computations that start in a realm: they answer with what a
predicate admits, and they fail with errors of the realm only. Sequencing keeps it, so what is built
from parts that keep it keeps it: one node (`Level.evalNode_keeps`), one call (`Level.apply_keeps`),
one expansion (`Level.expandLoop_keeps`) and one form (`Analyzer.analyzeForm_keeps`). A `Guarantee`
is a judgement that the start of a task keeps too. Invariants of all runs start from these.
-/

namespace LispCore

/-- A value that `P` admits or an error that `error` admits. -/
def Fits {α : Type} (error : Error → Prop) (P : α → Prop) : Except Error α → Prop
  | .ok a => P a
  | .error e => error e

/-- Symbols, values, environments, expressions and errors such that the ones the evaluator makes
from some of them are again among them. -/
structure Realm where
  symbol : Symbol → Prop
  value : Value → Prop
  env : Env → Prop
  expr : Expr → Prop
  error : Error → Prop
  trimmed {s : Symbol} (hs : symbol s) : symbol s.trimmed
  nil : value .nil
  symbol_iff {s : Symbol} : value (.symbol s) ↔ symbol s
  list_iff {items : List Value} : value (.list items) ↔ ∀ v ∈ items, value v
  vector_iff {items : List Value} : value (.vector items) ↔ ∀ v ∈ items, value v
  const_iff {v : Value} : expr (.const v) ↔ value v
  quote_iff {v : Value} : expr (.quote v) ↔ value v
  define_iff {s : Symbol} {e : Option Expr} :
    expr (.define s e) ↔ symbol s ∧ ∀ e' ∈ e, expr e'
  cond_iff {test yes no : Option Expr} :
    expr (.cond test yes no) ↔ (∀ e ∈ test, expr e) ∧ (∀ e ∈ yes, expr e) ∧ ∀ e ∈ no, expr e
  block_iff {body : List Expr} : expr (.block body) ↔ ∀ e ∈ body, expr e
  resolve_iff {s : Symbol} : expr (.resolve s) ↔ symbol s
  invoke_iff {name : String} {target : Expr} {args : List Expr} :
    expr (.invoke name target args) ↔ expr target ∧ ∀ e ∈ args, expr e
  literal_iff {items : List Value} {exprs : List Expr} :
    expr (.vector items exprs) ↔ (∀ v ∈ items, value v) ∧ ∀ e ∈ exprs, expr e
  fn_iff {name : Option Symbol} {doc : Option String} {isMacro : Bool}
      {arities : List (Arity Expr)} :
    expr (.fn name doc isMacro arities) ↔
      (∀ s ∈ name, symbol s) ∧ ∀ a ∈ arities, (∀ s ∈ a.params, symbol s) ∧ expr a.body
  go_iff {body : Expr} {policy : SpawnPolicy} : expr (.go body policy) ↔ expr body
  child {e : Env} {vars : Bindings Value} (name : String) (he : env e)
    (hvars : ∀ p ∈ vars, value p.2) : env (e.child name vars)
  find {e : Env} {name : String} {v : Value} (he : env e) (hfind : e.find? name = some v) : value v
  instantiate {name : Option Symbol} {doc : Option String} {isMacro : Bool}
    {arities : List (Arity Expr)} {e : Env} (id : Nat)
    (hfn : expr (.fn name doc isMacro arities)) (he : env e) :
    value (.fn (.instantiate id name doc isMacro arities e))
  enter {f : Closure} {args : List Value} (hf : value (.fn f)) (hargs : ∀ v ∈ args, value v) :
    Fits error (fun entered => env entered.1 ∧ expr entered.2) (f.enter args)
  uncallable {f : Native} (hf : value (.native f)) (hnone : f.function = none) (text : String) :
    error (.internal text)
  blank {s : Symbol} (hs : symbol s) (hblank : Text.allBlank s.base = true) :
    error (.invalidName s.base)
  plain {e : Error} (hinternal : ∀ text, e ≠ .internal text)
    (hname : ∀ name, e ≠ .invalidName name) : error e

namespace Realm

/-- The realm of everything. -/
def all : Realm where
  symbol _ := True
  value _ := True
  env _ := True
  expr _ := True
  error _ := True
  trimmed _ := trivial
  nil := trivial
  symbol_iff := by simp
  list_iff := by simp
  vector_iff := by simp
  const_iff := by simp
  quote_iff := by simp
  define_iff := by simp
  cond_iff := by simp
  block_iff := by simp
  resolve_iff := by simp
  invoke_iff := by simp
  literal_iff := by simp
  fn_iff := by simp
  go_iff := by simp
  child _ _ _ := trivial
  find _ _ := trivial
  instantiate _ _ _ := trivial
  enter {f args} _ _ := by cases f.enter args <;> trivial
  uncallable _ _ _ := trivial
  blank _ _ := trivial
  plain _ _ := trivial

end Realm

/-- What a host function does stays in a realm: the values that it calls and passes on, and its
answer, as long as what its calls return does. -/
def Reply.Within (W : Realm) {args : List Value} : Reply args → Prop
  | .done r => Fits W.error W.value r
  | .call f xs _ next =>
    (W.value f ∧ ∀ v ∈ xs, W.value v) ∧ ∀ v, W.value v → (next v).Within W

theorem Reply.within_all {args : List Value} (reply : Reply args) : reply.Within .all := by
  induction reply with
  | done r => cases r <;> trivial
  | call f xs bounded next ih => exact ⟨⟨trivial, fun _ _ => trivial⟩, fun v _ => ih v⟩

/-- What a custom special form does stays in a realm: the forms that it has analyzed, and its
expression, as long as those that the analyses return do. -/
def Parsing.Within (W : Realm) : Parsing → Prop
  | .done e => W.expr e
  | .failed e => W.error e
  | .analyze _ form next => W.value form ∧ ∀ e, W.expr e → (next e).Within W

namespace Realm

variable (W : Realm)

/-- A host whose functions stay in a realm. -/
def Admits (host : Host) : Prop :=
  ∀ name c args, (∀ v ∈ args, W.value v) → (host name c args).Within W

/-- An analyzer whose custom special forms stay in a realm. -/
def Allows (a : Analyzer) : Prop :=
  ∀ name parse, a.specials.find? name = some (.custom parse) →
    ∀ policy e args, W.env e → (∀ v ∈ args, W.value v) → (parse policy e args).Within W

theorem all_admits (host : Host) : all.Admits host := fun _ _ _ _ => Reply.within_all _

theorem all_allows (a : Analyzer) : all.Allows a := by
  intro name parse _ policy e args _ _
  induction parse policy e args with
  | done e => trivial
  | failed e => trivial
  | analyze shadows form next ih => exact ⟨trivial, fun e _ => ih e⟩

/-- A request about what is in a realm. -/
def request : Request → Prop
  | .lookup _ s => W.symbol s
  | .define _ s v => W.symbol s ∧ W.value v
  | .freshId => True
  | .spawn task => W.env task.env ∧ W.expr task.body

/-- An answer that stays in a realm. -/
def reply : (r : Request) → r.Answer → Prop
  | .lookup _ _, found => Fits W.error W.value found
  | .define _ _ _, done => Fits W.error (fun _ => True) done
  | .freshId, _ => True
  | .spawn _, _ => True

end Realm

/-- A judgement on the computations of a monad, relative to a realm, that sequencing keeps. -/
structure Judgement (m : Type → Type) [MonadStore m] (W : Realm) where
  holds : {α : Type} → m α → (α → Prop) → Prop
  pure {α : Type} {a : α} {Q : α → Prop} (ha : Q a) : holds (pure a) Q
  bind {α β : Type} {x : m α} {f : α → m β} {P : α → Prop} {Q : β → Prop} :
    holds x P → (∀ a, P a → holds (f a) Q) → holds (x >>= f) Q
  fail {α : Type} {e : Error} {Q : α → Prop} (he : W.error e) : holds (fail e) Q
  /-- Definitions and tasks are left out: which ones may be made depends on the judgement. -/
  ask {r : Request} (hr : W.request r) (hdefine : ∀ root s v, r ≠ .define root s v)
    (hspawn : ∀ task, r ≠ .spawn task) : holds (request r) (W.reply r)

/-- A judgement that the start of any task of the realm keeps. -/
structure Guarantee (m : Type → Type) [MonadStore m] (W : Realm) extends Judgement m W where
  spawn {task : Task} (henv : W.env task.env) (hbody : W.expr task.body) :
    holds (request (.spawn task)) fun _ => True

variable {m : Type → Type} [MonadStore m] {W : Realm}

namespace Judgement

variable {α β : Type} {G : Judgement m W}

theorem ofExcept {r : Except Error α} {Q : α → Prop} (h : Fits W.error Q r) :
    G.holds (ofExcept r) Q := by
  cases r with
  | ok a => exact G.pure h
  | error e => exact G.fail h

theorem checked (form : String) {r : Except FormFault α} {Q : α → Prop}
    (h : ∀ a, r = .ok a → Q a) : G.holds (checked form r) Q := by
  cases r with
  | ok a => exact G.pure (h a rfl)
  | error fault => exact G.fail (W.plain nofun nofun)

theorem expectCount (form : String) (least most : Nat) (args : List Value) :
    G.holds (expectCount form least most args) fun _ => True := by
  unfold LispCore.expectCount
  split
  · exact G.pure trivial
  · exact G.fail (W.plain nofun nofun)

theorem mapM {f : β → m α} {xs : List β} {P : α → Prop} (h : ∀ x ∈ xs, G.holds (f x) P) :
    G.holds (xs.mapM f) fun ys => ∀ y ∈ ys, P y := by
  -- `mapM` collects the results in reverse, so the induction is for every start of the collection
  suffices go : ∀ acc, (∀ y ∈ acc, P y) →
      G.holds (List.mapM.loop f xs acc) fun ys => ∀ y ∈ ys, P y from go [] nofun
  induction xs with
  | nil => exact fun acc hacc => G.pure fun y hy => hacc y (List.mem_reverse.1 hy)
  | cons x xs ih =>
    intro acc hacc
    refine G.bind (h x List.mem_cons_self) fun a ha => ?_
    exact ih (fun y hy => h y (List.mem_cons_of_mem x hy)) _ (List.forall_mem_cons.2 ⟨ha, hacc⟩)

theorem foldlM {f : α → β → m α} {xs : List β} {P : α → Prop}
    (h : ∀ a, P a → ∀ x ∈ xs, G.holds (f a x) P) {init : α} (hinit : P init) :
    G.holds (xs.foldlM f init) P := by
  induction xs generalizing init with
  | nil => exact G.pure hinit
  | cons x xs ih =>
    refine G.bind (h init hinit x List.mem_cons_self) fun a ha => ?_
    exact ih (fun b hb y hy => h b hb y (List.mem_cons_of_mem x hy)) ha

theorem lookupM {env : Env} (henv : W.env env) {symbol : Symbol} (hs : W.symbol symbol) :
    G.holds (env.lookupM symbol) (Fits W.error W.value) := by
  have hlookup : G.holds (request (.lookup env.rootId symbol)) (Fits W.error W.value) :=
    G.ask (r := .lookup env.rootId symbol) hs nofun nofun
  unfold Env.lookupM
  cases symbol.space with
  | none =>
    cases hfind : env.find? symbol.base with
    | none => exact hlookup
    | some v => exact G.pure (W.find henv hfind)
  | some ns => exact hlookup

end Judgement

/-! ## Calls -/

/-- What a host function does keeps a judgement that its calls keep. -/
theorem Reply.follow_keeps {G : Judgement m W} {args : List Value}
    {call : (f : Value) → (xs : List Value) → f.callSize xs ≤ sizeOf args → m Value}
    (hcall : ∀ f xs bounded, W.value f → (∀ v ∈ xs, W.value v) →
      G.holds (call f xs bounded) W.value)
    {reply : Reply args} (h : reply.Within W) : G.holds (reply.follow call) W.value := by
  induction reply with
  | done r => exact Judgement.ofExcept h
  | call f xs bounded next ih =>
    exact G.bind (hcall f xs bounded h.1.1 h.1.2) fun v hv => ih v (h.2 v hv)

namespace Level

variable {G : Judgement m W} {lv : Level m}

theorem applyClosure_keeps
    (heval : ∀ env e, W.env env → W.expr e → G.holds (lv.eval env e) W.value) {f : Closure}
    {args : List Value} (hf : W.value (.fn f)) (hargs : ∀ v ∈ args, W.value v) :
    G.holds (lv.applyClosure f args) W.value := by
  have henter := W.enter hf hargs
  unfold applyClosure
  cases hentered : f.enter args with
  | ok entered =>
    rw [hentered] at henter
    exact heval _ _ henter.1 henter.2
  | error e =>
    rw [hentered] at henter
    exact G.fail henter

theorem apply_keeps (hhost : W.Admits lv.host)
    (heval : ∀ env e, W.env env → W.expr e → G.holds (lv.eval env e) W.value) {f : Value}
    {args : List Value} (hf : W.value f) (hargs : ∀ v ∈ args, W.value v) :
    G.holds (lv.apply f args) W.value := by
  induction f, args using apply_induction with
  | fn f args =>
    rw [apply_fn]
    exact applyClosure_keeps heval hf hargs
  | native f name args hname ih =>
    rw [lv.apply_native hname]
    exact Reply.follow_keeps ih (hhost name lv.context args hargs)
  | uncallable f args hname =>
    rw [lv.apply_uncallable hname]
    exact G.fail (W.uncallable hf hname _)
  | other f args hother =>
    rw [lv.apply_of_not_invokable hother]
    exact G.fail (W.plain nofun nofun)

/-! ## Evaluation of one node -/

theorem evalOption_keeps
    (heval : ∀ env e, W.env env → W.expr e → G.holds (lv.eval env e) W.value) {env : Env}
    (henv : W.env env) {e : Option Expr} (he : ∀ e' ∈ e, W.expr e') :
    G.holds (lv.evalOption env e) W.value := by
  cases e with
  | none => exact G.pure W.nil
  | some e => exact heval env e henv (he e rfl)

/-- Up to the end of a vector there is an entry to replace or to add. -/
theorem refresh_fits {items : List Value} {index : Nat} {v : Value}
    (hindex : index ≤ items.length) (hitems : ∀ w ∈ items, W.value w) (hv : W.value v) :
    Fits W.error (fun items' => index + 1 ≤ items'.length ∧ ∀ w ∈ items', W.value w)
      (refresh items index v) := by
  unfold refresh
  split
  · next hsame =>
    have hlt : index < items.length := by
      refine Nat.lt_of_not_le fun hge => ?_
      rw [List.getElem?_eq_none hge] at hsame
      cases hsame
    exact ⟨hlt, hitems⟩
  · unfold Collection.assoc?
    dsimp only
    by_cases hlt : index < items.length
    · rw [if_pos hlt]
      refine ⟨by rw [Collection.items, List.length_set]; exact hlt, fun w hw => ?_⟩
      rcases List.mem_or_eq_of_mem_set hw with hmem | rfl
      · exact hitems w hmem
      · exact hv
    · rw [if_neg hlt, if_pos (by omega)]
      refine ⟨by simpa [Collection.items] using hindex, fun w hw => ?_⟩
      rcases List.mem_append.1 hw with hmem | hmem
      · exact hitems w hmem
      · rwa [List.mem_singleton.1 hmem]

/-- The values of a literal are put in place one after the other, so that each finds the vector
long enough. -/
theorem refreshAll_keeps
    (heval : ∀ env e, W.env env → W.expr e → G.holds (lv.eval env e) W.value) {env : Env}
    (henv : W.env env) {exprs : List Expr} (hexprs : ∀ e ∈ exprs, W.expr e) {start : Nat}
    {items : List Value} (hstart : start ≤ items.length) (hitems : ∀ v ∈ items, W.value v) :
    G.holds ((exprs.zipIdx start).foldlM (fun items p => do
      ofExcept (refresh items p.2 (← lv.eval env p.1))) items) fun items' => ∀ v ∈ items', W.value v := by
  induction exprs generalizing start items with
  | nil => exact G.pure hitems
  | cons e exprs ih =>
    refine G.bind (P := fun items' => start + 1 ≤ items'.length ∧ ∀ v ∈ items', W.value v) ?_ ?_
    · exact G.bind (heval env e henv (hexprs e List.mem_cons_self)) fun v hv =>
        Judgement.ofExcept (refresh_fits hstart hitems hv)
    · exact fun items' h => ih (fun e' he' => hexprs e' (List.mem_cons_of_mem e he')) h.1 h.2

/-- One node keeps a judgement that evaluation one level deeper and calls keep. A definition has to
be one that may be made, and so has the start of a task. -/
theorem evalNode_keeps
    (heval : ∀ env e, W.env env → W.expr e → G.holds (lv.eval env e) W.value)
    (hhost : W.Admits lv.host) {env : Env} (henv : W.env env) {e : Expr} (he : W.expr e)
    (hdefine : ∀ symbol value, e = .define symbol value → ∀ v, W.value v →
      G.holds (request (.define env.rootId symbol.trimmed v)) (Fits W.error fun _ => True))
    (hspawn : ∀ body policy, e = .go body policy →
      G.holds (request (.spawn ⟨env.child goFrame [], body, lv.context.limit, policy⟩))
        fun _ => True) :
    G.holds (lv.evalNode env e) W.value := by
  cases e with
  | const v => exact G.pure (W.const_iff.1 he)
  | quote v => exact G.pure (W.quote_iff.1 he)
  | define symbol value =>
    obtain ⟨hsymbol, hvalue⟩ := W.define_iff.1 he
    refine G.bind (evalOption_keeps heval henv hvalue) fun v hv => ?_
    refine G.bind (hdefine symbol value rfl v hv) fun done hdone => ?_
    cases done with
    | ok _ => exact G.pure (W.symbol_iff.2 (W.trimmed hsymbol))
    | error e => exact G.fail hdone
  | cond test yes no =>
    obtain ⟨htest, hyes, hno⟩ := W.cond_iff.1 he
    refine G.bind (evalOption_keeps heval henv htest) fun t _ => evalOption_keeps heval henv ?_
    split
    · exact hyes
    · exact hno
  | block body =>
    exact Judgement.foldlM (fun _ _ e he' => heval env e henv (W.block_iff.1 he e he')) W.nil
  | resolve symbol =>
    exact G.bind (Judgement.lookupM henv (W.resolve_iff.1 he)) fun found => Judgement.ofExcept
  | invoke name target args =>
    obtain ⟨htarget, hargs⟩ := W.invoke_iff.1 he
    refine G.bind (heval env target henv htarget) fun f hf => ?_
    split
    · refine G.bind (Judgement.mapM fun e he' => heval env e henv (hargs e he')) fun args hargs => ?_
      exact apply_keeps hhost heval hf hargs
    · exact G.fail (W.plain nofun nofun)
  | vector items exprs =>
    obtain ⟨hitems, hexprs⟩ := W.literal_iff.1 he
    refine G.bind (refreshAll_keeps heval henv hexprs (Nat.zero_le _) hitems) fun items hitems => ?_
    exact G.pure (W.vector_iff.2 hitems)
  | fn name doc isMacro arities =>
    exact G.bind (G.ask (r := .freshId) trivial nofun nofun) fun id _ =>
      G.pure (W.instantiate id he henv)
  | go body policy =>
    exact G.bind (hspawn body policy rfl) fun _ _ => G.pure W.nil

/-! ## Macro expansion -/

theorem macroOf_keeps {env : Env} (henv : W.env env) {form : Value} (hform : W.value form) :
    G.holds (macroOf env form) fun found =>
      ∀ call ∈ found, W.value (.fn call.1) ∧ ∀ v ∈ call.2, W.value v := by
  unfold macroOf
  split
  · next head args =>
    obtain ⟨hhead, hargs⟩ := List.forall_mem_cons.1 (W.list_iff.1 hform)
    refine G.bind (Judgement.lookupM henv (W.symbol_iff.1 hhead)) fun found hfound => ?_
    split
    · next f =>
      refine G.pure fun call hcall => ?_
      split at hcall
      · cases hcall
        exact ⟨hfound, hargs⟩
      · cases hcall
    · exact G.pure nofun
  · exact G.pure nofun

theorem expandOnce_keeps
    (heval : ∀ env e, W.env env → W.expr e → G.holds (lv.eval env e) W.value) {env : Env}
    (henv : W.env env) {form : Value} (hform : W.value form) :
    G.holds (lv.expandOnce env form) fun next => ∀ v ∈ next, W.value v := by
  refine G.bind (macroOf_keeps henv hform) fun found hfound => ?_
  cases found with
  | none => exact G.pure nofun
  | some call =>
    obtain ⟨hf, hargs⟩ := hfound call rfl
    refine G.bind (applyClosure_keeps heval hf hargs) fun v hv => G.pure ?_
    rintro _ ⟨⟩
    exact hv

theorem expandLoop_keeps
    (heval : ∀ env e, W.env env → W.expr e → G.holds (lv.eval env e) W.value) {env : Env}
    (henv : W.env env) (max : Nat) (source : Value) (left : Nat) {form : Value}
    (hform : W.value form) : G.holds (lv.expandLoop max env source left form) W.value := by
  induction left generalizing form with
  | zero =>
    unfold expandLoop
    refine G.bind (expandOnce_keeps heval henv hform) fun next hnext => ?_
    cases next with
    | none => exact G.pure hform
    | some next => exact G.fail (W.plain nofun nofun)
  | succ left ih =>
    unfold expandLoop
    refine G.bind (expandOnce_keeps heval henv hform) fun next hnext => ?_
    cases next with
    | none => exact G.pure hform
    | some next => exact ih (hnext next rfl)

end Level

/-! ## Analysis of one form -/

namespace Realm

variable (W : Realm)

/-- The parts of a definition stay in the realm. -/
theorem fnForm {args : List Value} {f : FnForm} (hargs : ∀ v ∈ args, W.value v)
    (hparse : FnForm.parse args = .ok f) :
    (∀ s ∈ f.name, W.symbol s) ∧ ∀ v ∈ f.clauses, W.value v := by
  have hname : (∀ s ∈ (FnForm.takeName args).1, W.symbol s) ∧
      ∀ v ∈ (FnForm.takeName args).2, W.value v := by
    unfold FnForm.takeName
    split
    · obtain ⟨hs, hrest⟩ := List.forall_mem_cons.1 hargs
      exact ⟨by rintro _ ⟨⟩; exact W.symbol_iff.1 hs, hrest⟩
    · exact ⟨nofun, hargs⟩
  have hrest : ∀ v ∈ (FnForm.takeDoc (FnForm.takeName args).2).2, W.value v := by
    unfold FnForm.takeDoc
    split
    · next hforms => exact (List.forall_mem_cons.1 (hforms ▸ hname.2)).2
    · exact hname.2
  unfold FnForm.parse at hparse
  dsimp only at hparse
  split at hparse
  · cases hparse
  · next hforms =>
    cases hparse
    rw [hforms] at hrest
    exact ⟨hname.1, List.forall_mem_singleton.2 (W.list_iff.2 hrest)⟩
  · cases hparse
    exact ⟨hname.1, hrest⟩

theorem clause {form : Value} {clause : Clause} (hform : W.value form)
    (hclause : Clause.ofForm form = .ok clause) :
    (∀ v ∈ clause.params, W.value v) ∧ ∀ v ∈ clause.body, W.value v := by
  unfold Clause.ofForm at hclause
  split at hclause
  · cases hclause
    obtain ⟨hparams, hbody⟩ := List.forall_mem_cons.1 (W.list_iff.1 hform)
    exact ⟨W.vector_iff.1 hparams, hbody⟩
  · cases hclause
  · cases hclause

theorem parameter {v : Value} {s : Symbol} (hv : W.value v) (hs : Params.symbol? v = .ok s) :
    W.symbol s := by
  unfold Params.symbol? at hs
  split at hs
  · split at hs
    · cases hs
      exact W.symbol_iff.1 hv
    · cases hs
  · cases hs

theorem rest {forms : List Value} {s : Symbol} (hforms : ∀ v ∈ forms, W.value v)
    (hrest : Params.rest forms = .ok s) : W.symbol s := by
  unfold Params.rest at hrest
  split at hrest
  · next v =>
    cases hs : Params.symbol? v with
    | error fault => rw [hs] at hrest; cases hrest
    | ok s' =>
      rw [hs] at hrest
      change (if s'.base = Params.restMarker then _ else _) = _ at hrest
      split at hrest
      · cases hrest
      · cases hrest
        exact W.parameter (hforms v List.mem_cons_self) hs
  · cases hrest

theorem params {forms : List Value} {params : List Symbol} {variadic : Bool}
    (hforms : ∀ v ∈ forms, W.value v) (hparse : Params.parse forms = .ok (params, variadic)) :
    ∀ s ∈ params, W.symbol s := by
  induction forms generalizing params variadic with
  | nil => cases hparse; exact nofun
  | cons v vs ih =>
    obtain ⟨hv, hvs⟩ := List.forall_mem_cons.1 hforms
    rw [Params.parse] at hparse
    cases hs : Params.symbol? v with
    | error fault => rw [hs] at hparse; cases hparse
    | ok s =>
      rw [hs] at hparse
      change (if s.base = Params.restMarker then _ else _) = _ at hparse
      split at hparse
      · cases hrest : Params.rest vs with
        | error fault => rw [hrest] at hparse; cases hparse
        | ok r =>
          rw [hrest] at hparse
          cases hparse
          exact List.forall_mem_singleton.2 (W.rest hvs hrest)
      · cases hmore : Params.parse vs with
        | error fault => rw [hmore] at hparse; cases hparse
        | ok parsed =>
          rw [hmore] at hparse
          cases hparse
          exact List.forall_mem_cons.2 ⟨W.parameter hv hs, ih hvs hmore⟩

theorem shadowFrame {env : Env} (henv : W.env env) (name : Option Symbol)
    (params : List Symbol) : W.env (shadowFrame env name params) := by
  refine W.child _ henv fun p hp => ?_
  obtain ⟨n, -, rfl⟩ := List.mem_map.1 (Bindings.mem_of_mem_ofPairs hp)
  exact W.nil

theorem shadowFrames {env : Env} (henv : W.env env)
    (shadows : List (Option Symbol × List Symbol)) :
    W.env (LispCore.shadowFrames env shadows) := by
  induction shadows generalizing env with
  | nil => exact henv
  | cons shadow shadows ih => exact ih (W.shadowFrame henv shadow.1 shadow.2)

end Realm

section

variable {G : Judgement m W} {deeper : Env → Value → m Expr}

theorem analyzeClause_keeps
    (hdeeper : ∀ env form, W.env env → W.value form → G.holds (deeper env form) W.expr)
    (form : String) {env : Env} (henv : W.env env) (name : Option Symbol) {clause : Value}
    (hclause : W.value clause) :
    G.holds (analyzeClause deeper form env name clause) fun a =>
      (∀ s ∈ a.params, W.symbol s) ∧ W.expr a.body := by
  refine G.bind (Judgement.checked form fun _ h => W.clause hclause h) fun parts hparts => ?_
  refine G.bind (P := fun parsed => ∀ s ∈ parsed.1, W.symbol s)
    (Judgement.checked form fun _ h => W.params hparts.1 h) fun (params, variadic) hparams => ?_
  refine G.bind (Judgement.mapM fun form hform =>
    hdeeper _ form (W.shadowFrame henv name params) (hparts.2 form hform)) fun exprs hexprs => ?_
  exact G.pure ⟨hparams, W.block_iff.2 hexprs⟩

theorem analyzeFn_keeps
    (hdeeper : ∀ env form, W.env env → W.value form → G.holds (deeper env form) W.expr)
    (form : String) (isMacro : Bool) {env : Env} (henv : W.env env) {args : List Value}
    (hargs : ∀ v ∈ args, W.value v) :
    G.holds (analyzeFn deeper form isMacro env args) W.expr := by
  refine G.bind (Judgement.checked form fun _ h => W.fnForm hargs h) fun f hf => ?_
  refine G.bind (Judgement.mapM fun clause hclause =>
    analyzeClause_keeps hdeeper form henv f.name (hf.2 clause hclause)) fun arities harities => ?_
  exact G.pure (W.fn_iff.2 ⟨hf.1, harities⟩)

theorem Parsing.run_keeps
    (hdeeper : ∀ env form, W.env env → W.value form → G.holds (deeper env form) W.expr)
    {env : Env} (henv : W.env env) {p : Parsing} (hp : p.Within W) :
    G.holds (p.run deeper env) W.expr := by
  induction p with
  | done e => exact G.pure hp
  | failed e => exact G.fail hp
  | analyze shadows form next ih =>
    exact G.bind (hdeeper _ form (W.shadowFrames henv shadows) hp.1) fun e he => ih e (hp.2 e he)

theorem SpecialForm.analyze_keeps
    (hdeeper : ∀ env form, W.env env → W.value form → G.holds (deeper env form) W.expr)
    {form : SpecialForm}
    (hform : ∀ parse, form = .custom parse →
      ∀ policy e args, W.env e → (∀ v ∈ args, W.value v) → (parse policy e args).Within W)
    (policy : SpawnPolicy) {env : Env} (henv : W.env env) {args : List Value}
    (hargs : ∀ v ∈ args, W.value v) : G.holds (form.analyze deeper policy env args) W.expr := by
  have hall {forms : List Value} (hforms : ∀ v ∈ forms, W.value v) :
      G.holds (forms.mapM (deeper env)) fun exprs => ∀ e ∈ exprs, W.expr e :=
    Judgement.mapM fun form hform => hdeeper env form henv (hforms form hform)
  have hhead : W.value (args.headD .nil) := by
    cases args with
    | nil => exact W.nil
    | cons v _ => exact hargs v List.mem_cons_self
  cases form with
  | block => exact G.bind (hall hargs) fun exprs hexprs => G.pure (W.block_iff.2 hexprs)
  | cond =>
    refine G.bind (Judgement.expectCount "if" 2 3 args) fun _ _ => ?_
    refine G.bind (hall hargs) fun exprs hexprs => G.pure (W.cond_iff.2 ?_)
    have hat (k : Nat) : ∀ e ∈ exprs[k]?, W.expr e :=
      fun e he => hexprs e (List.mem_of_getElem? he)
    exact ⟨hat 0, hat 1, hat 2⟩
  | define =>
    refine G.bind (Judgement.expectCount "def" 1 2 args) fun _ _ => ?_
    split
    · next s value =>
      obtain ⟨hs, hvalue⟩ := List.forall_mem_cons.1 hargs
      refine G.bind (hall hvalue) fun exprs hexprs => G.pure (W.define_iff.2 ⟨W.symbol_iff.1 hs, ?_⟩)
      exact fun e he => hexprs e (List.mem_of_mem_head? he)
    · exact G.fail (W.plain nofun nofun)
    · exact G.fail (W.plain nofun nofun)
  | function => exact analyzeFn_keeps hdeeper "fn" false henv hargs
  | expander => exact analyzeFn_keeps hdeeper "macro" true henv hargs
  | quote =>
    refine G.bind (Judgement.expectCount "quote" 1 1 args) fun _ _ => ?_
    exact G.pure (W.quote_iff.2 hhead)
  | go =>
    refine G.bind (Judgement.expectCount "go" 1 1 args) fun _ _ => ?_
    exact G.bind (hdeeper env _ henv hhead) fun body hbody => G.pure (W.go_iff.2 hbody)
  | custom parse => exact Parsing.run_keeps hdeeper henv (hform parse rfl policy env args henv hargs)

/-- One form keeps a guarantee that its expansion and the analysis of the forms inside it keep. -/
theorem Analyzer.analyzeForm_keeps {a : Analyzer} (ha : W.Allows a)
    {expand : Env → Value → m Value} {env : Env} (henv : W.env env) {form : Value}
    (hexpand : G.holds (expand env form) W.value)
    (hdeeper : ∀ env form, W.env env → W.value form → G.holds (deeper env form) W.expr) :
    G.holds (a.analyzeForm expand deeper env form) W.expr := by
  unfold analyzeForm
  split
  · exact G.pure (W.const_iff.2 W.nil)
  refine G.bind hexpand fun expanded hexpanded => ?_
  split
  · exact G.pure (W.resolve_iff.2 (W.symbol_iff.1 hexpanded))
  · next head args =>
    obtain ⟨hhead, hargs⟩ := List.forall_mem_cons.1 (W.list_iff.1 hexpanded)
    split
    · next special hspecial =>
      refine SpecialForm.analyze_keeps hdeeper (fun parse hparse => ?_) a.spawnPolicy henv hargs
      obtain ⟨name, hname⟩ := exists_name_of_special? hspecial
      exact ha name parse (hparse ▸ hname)
    · refine G.bind (hdeeper env head henv hhead) fun target htarget => ?_
      refine G.bind (Judgement.mapM fun form hform => hdeeper env form henv (hargs form hform))
        fun args hargs => G.pure (W.invoke_iff.2 ⟨htarget, hargs⟩)
  · next item items =>
    have hitems := W.vector_iff.1 hexpanded
    refine G.bind (Judgement.mapM fun form hform => hdeeper env form henv (hitems form hform))
      fun exprs hexprs => G.pure (W.literal_iff.2 ⟨hitems, hexprs⟩)
  · exact G.pure (W.const_iff.2 hexpanded)

end

/-! ## Whole runs -/

section

variable {G : Guarantee m W} {host : Host} (hhost : W.Admits host)
  (hdefine : ∀ root s v, W.symbol s → W.value v →
    G.holds (request (.define root s v)) (Fits W.error fun _ => True))

include hhost hdefine

/-- Evaluation keeps a guarantee that definitions keep, however deep it goes. -/
theorem eval_keeps (limit left : Nat) (env : Env) (e : Expr) (henv : W.env env) (he : W.expr e) :
    G.holds (eval host limit left env e) W.value := by
  induction left generalizing env e with
  | zero => exact G.fail (W.plain nofun nofun)
  | succ left ih =>
    rw [eval_succ]
    refine Level.evalNode_keeps ih hhost henv he (fun symbol value hnode v hv => ?_)
      fun body policy hnode => ?_
    · subst hnode
      exact hdefine _ _ v (W.trimmed (W.define_iff.1 he).1) hv
    · subst hnode
      exact G.spawn (W.child _ henv nofun) (W.go_iff.1 he)

theorem Analyzer.analyze_keeps {a : Analyzer} (ha : W.Allows a) (limit left : Nat) (env : Env)
    (form : Value) (henv : W.env env) (hform : W.value form) :
    G.holds (a.analyze host limit left env form) W.expr := by
  induction left generalizing env form with
  | zero => exact G.fail (W.plain nofun nofun)
  | succ left ih =>
    rw [Analyzer.analyze_succ]
    refine Analyzer.analyzeForm_keeps ha henv ?_ ih
    exact Level.expandLoop_keeps (eval_keeps hhost hdefine limit left) henv _ _ _ hform

end

/-! ## Stores -/

/-- Everything bound stays in the realm. -/
def Globals.Within (W : Realm) (g : Globals) : Prop :=
  ∀ table ∈ g.tables, ∀ entry ∈ table.2, W.value entry.2

/-- Everything bound and every task that waits stay in the realm. -/
structure Store.Within (W : Realm) (s : Store) : Prop where
  globals : ∀ g ∈ s.roots, g.Within W
  tasks : ∀ task ∈ s.tasks, W.env task.env ∧ W.expr task.body

theorem Store.within_all (s : Store) : s.Within .all :=
  ⟨fun _ _ _ _ _ _ => trivial, fun _ _ => ⟨trivial, trivial⟩⟩

namespace Globals.Within

variable {g : Globals}

theorem find? (h : g.Within W) {ns name : String} {table : Bindings Value} {v : Value}
    (htable : g.tables.find? ns = some table) (hv : table.find? name = some v) : W.value v :=
  h _ (Bindings.mem_of_find? htable) _ (Bindings.mem_of_find? hv)

theorem lookup (h : g.Within W) (symbol : Symbol) : Fits W.error W.value (g.lookup symbol) := by
  have hname (name : String) : W.error (.notFound name) := W.plain nofun nofun
  have hspace (ns : String) : W.error (.namespaceNotFound ns) := W.plain nofun nofun
  unfold Globals.lookup
  split
  · unfold resolveQualified
    split
    · exact hspace _
    · next htable =>
      split
      · exact hname _
      · next hv => exact h.find? htable hv
  · split
    · next hfind =>
      obtain ⟨table, htable, hv⟩ := Option.bind_eq_some_iff.1 hfind
      exact h.find? htable hv
    · exact hname _

theorem put (h : g.Within W) (ns name : String) {v : Value} (hv : W.value v) :
    (g.put ns name v).Within W := by
  have htable : ∀ entry ∈ g.table ns, W.value entry.2 := by
    unfold table
    cases hfind : g.tables.find? ns with
    | none => exact nofun
    | some table => exact h _ (Bindings.mem_of_find? hfind)
  intro table hmem entry hentry
  rcases Bindings.mem_of_mem_insert hmem with rfl | hmem
  · rcases Bindings.mem_of_mem_insert hentry with rfl | hentry
    · exact hv
    · exact htable entry hentry
  · exact h table hmem entry hentry

theorem define (h : g.Within W) {symbol : Symbol} (hs : W.symbol symbol) {v : Value}
    (hv : W.value v) : Fits W.error (Globals.Within W) (g.define symbol v) := by
  have hdefine := g.define_eq symbol.space symbol.base v
  change g.define symbol v = _ at hdefine
  rw [hdefine]
  split
  · next hblank => exact W.blank hs hblank
  · split
    · exact h.put _ _ hv
    · exact W.plain nofun nofun

end Globals.Within

namespace Store.Within

variable {s : Store}

theorem root (h : s.Within W) (root : Nat) : (s.globals root).Within W := by
  unfold Store.globals
  rw [List.getD_eq_getElem?_getD]
  cases hroot : s.roots[root]? with
  | none => exact nofun
  | some g => exact h.globals g (List.mem_of_getElem? hroot)

theorem setGlobals (h : s.Within W) (root : Nat) {g : Globals} (hg : g.Within W) :
    (s.setGlobals root g).Within W where
  globals g' hmem := by
    rcases List.mem_or_eq_of_mem_set hmem with hmem | rfl
    · exact h.globals g' hmem
    · exact hg
  tasks := h.tasks

/-- The store answers requests of the realm within it. -/
theorem answer (h : s.Within W) {r : Request} (hr : W.request r) :
    W.reply r (s.answer r).1 ∧ (s.answer r).2.Within W := by
  cases r with
  | lookup root symbol => exact ⟨(h.root root).lookup symbol, h⟩
  | define root symbol v =>
    have hdefine := (h.root root).define hr.1 hr.2
    simp only [Store.answer]
    cases hg : (s.globals root).define symbol v with
    | ok g =>
      rw [hg] at hdefine
      exact ⟨trivial, h.setGlobals root hdefine⟩
    | error e =>
      rw [hg] at hdefine
      exact ⟨hdefine, h⟩
  | freshId => exact ⟨trivial, h.globals, h.tasks⟩
  | spawn task => exact ⟨trivial, h.globals, List.forall_mem_cons.2 ⟨hr, h.tasks⟩⟩

end Store.Within

/-- From a store in the realm, a run answers with what `Q` admits or fails with an error of the
realm, and the store it leaves is again in the realm. -/
def Run.Keeps (W : Realm) {α : Type} (x : Run α) (Q : α → Prop) : Prop :=
  ∀ s : Store, s.Within W → match x s with
    | .ok a s' => Q a ∧ s'.Within W
    | .error e s' => W.error e ∧ s'.Within W

/-- Runs that stay in the realm. -/
def Judgement.running (W : Realm) : Judgement Run W where
  holds := Run.Keeps W
  pure ha _ hs := ⟨ha, hs⟩
  bind {_ _ x f _ _} hx hf s hs := by
    have h := hx s hs
    change match EStateM.bind x f s with
      | .ok a s' => _ ∧ s'.Within W
      | .error e s' => _ ∧ s'.Within W
    unfold EStateM.bind
    cases hxs : x s with
    | ok a s' =>
      rw [hxs] at h
      exact hf a h.1 s' h.2
    | error e s' =>
      rw [hxs] at h
      exact h
  fail he _ hs := ⟨he, hs⟩
  ask hr _ _ _ hs := hs.answer hr

abbrev Guarantee.running (W : Realm) : Guarantee Run W where
  toJudgement := .running W
  spawn {task} henv hbody _ hs := hs.answer (r := .spawn task) ⟨henv, hbody⟩

theorem Guarantee.running_define (root : Nat) (symbol : Symbol) (v : Value)
    (hsymbol : W.symbol symbol) (hv : W.value v) :
    (running W).holds (request (.define root symbol v)) (Fits W.error fun _ => True) :=
  fun _ hs => hs.answer (r := .define root symbol v) ⟨hsymbol, hv⟩

end LispCore
