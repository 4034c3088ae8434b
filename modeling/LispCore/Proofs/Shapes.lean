import LispCore.Proofs.Grammar
import LispCore.Proofs.MacroFree

/-!
# The shape of analyzed expressions

Expressions that are assembled by hand may lack branches, arities or items. Those that analysis makes
do not: `Expr.Shaped` says what a single node looks like, and every node of an analyzed expression
looks so (`Analyzer.nodes_shaped`). Constants are data, and nothing is said of what is inside them.

Whatever a form expands to, the nodes that analysis puts on top are shaped, given that those of the
forms inside are (`Analyzer.analyzeForm_shaped`). Hence so are all nodes, however deep.
-/

namespace LispCore

/-! ## Nodes -/

/-- An arity as a clause is analyzed to. -/
structure Arity.Shaped (a : Arity Expr) : Prop where
  body : ∃ exprs, a.body = .block exprs
  params : ∀ s ∈ a.params, Params.Proper s
  rest : a.variadic = true → a.params ≠ []

namespace Expr

/-- The expressions directly inside an expression. -/
def children : Expr → List Expr
  | .const _ => []
  | .quote _ => []
  | .define _ value => value.toList
  | .cond test yes no => test.toList ++ yes.toList ++ no.toList
  | .block body => body
  | .resolve _ => []
  | .invoke _ target args => target :: args
  | .vector _ exprs => exprs
  | .fn _ _ _ arities => arities.map (·.body)
  | .go body _ => [body]

/-- The nodes of an expression: the expression itself and the nodes of those inside it. -/
inductive HasNode : Expr → Expr → Prop where
  | self (e : Expr) : HasNode e e
  | inside {e child n : Expr} (hchild : child ∈ e.children) (h : HasNode child n) : HasNode e n

/-- What a node looks like that an analyzer with this spawn policy makes. -/
def Shaped (policy : SpawnPolicy) : Expr → Prop
  | .cond test yes _ => test.isSome ∧ yes.isSome
  | .vector items exprs => exprs.length = items.length ∧ items ≠ []
  | .fn _ _ _ arities => arities ≠ [] ∧ ∀ a ∈ arities, a.Shaped
  | .go _ own => own = policy
  | _ => True

/-- All nodes are shaped. -/
def AllShaped (policy : SpawnPolicy) (e : Expr) : Prop := ∀ n, e.HasNode n → n.Shaped policy

theorem AllShaped.intro {policy : SpawnPolicy} {e : Expr} (htop : e.Shaped policy)
    (hinside : ∀ child ∈ e.children, child.AllShaped policy) : e.AllShaped policy := by
  intro n hn
  cases hn with
  | self => exact htop
  | inside hchild h => exact hinside _ hchild n h

end Expr

/-! ## What is analyzed inside a form -/

theorem Run.expectCount_eq_ok {form : String} {least most : Nat} {args : List Value} {s t : Store}
    {u : Unit} (h : (expectCount form least most args : Run Unit) s = .ok u t) :
    least ≤ args.length ∧ args.length ≤ most := by
  unfold expectCount at h
  split at h
  · next hcount => simpa using hcount
  · cases h

/-- A variadic parameter list has the parameter that takes the surplus. -/
theorem Params.Written.ne_nil {items : List Value} {params : List Symbol}
    (h : Written items params true) : params ≠ [] := by
  cases h with
  | rest hparams hlast => simp

theorem FnForm.Written.ne_nil {args : List Value} {name : Option Symbol} {doc : Option String}
    {clauses : List (Arity (List Value))} (h : Written args name doc clauses) : clauses ≠ [] := by
  cases h with
  | single name doc hparams => simp
  | several name doc hne hclauses => exact hne

/-- Whatever form is analyzed, and from whatever store, the nodes of its expression are shaped. -/
def MakesShaped (policy : SpawnPolicy) (deeper : Env → Value → Run Expr) : Prop :=
  ∀ env form s e t, deeper env form s = .ok e t → e.AllShaped policy

section

variable {deeper : Env → Value → Run Expr} {policy : SpawnPolicy}
  (hdeeper : MakesShaped policy deeper)

include hdeeper

/-- The expressions of a body are analyzed forms. -/
theorem body_shaped {env : Env} {forms : List Value} {exprs : List Expr} {s t : Store}
    (h : forms.mapM (deeper env) s = .ok exprs t) : ∀ e ∈ exprs, e.AllShaped policy := by
  intro e he
  obtain ⟨form, -, s', t', hform⟩ := exists_of_mem_right (Run.mapM_eq_ok h) he
  exact hdeeper _ form _ e _ hform

theorem Clause.Analyzed.shaped {env : Env} {name : Option Symbol} {c : Arity (List Value)}
    {items : List Value} {a : Arity Expr} (h : Clause.Analyzed deeper env name c a)
    (hwritten : Params.Written items c.params c.variadic) :
    a.Shaped ∧ a.body.AllShaped policy := by
  obtain ⟨exprs, hbody, hexprs⟩ := h.body_eq
  refine ⟨⟨⟨exprs, hbody⟩, ?_, fun hvariadic => ?_⟩, ?_⟩
  · rw [h.params_eq]
    exact hwritten.proper
  · rw [h.variadic_eq] at hvariadic
    rw [hvariadic] at hwritten
    rw [h.params_eq]
    exact hwritten.ne_nil
  · rw [hbody]
    refine .intro trivial fun e he => ?_
    obtain ⟨form, -, s', t', hform⟩ := exists_of_mem_right hexprs he
    exact hdeeper _ form _ e _ hform

/-- A definition has an arity for each clause, and it has a clause. -/
theorem analyzeFn_shaped {form : String} {isMacro : Bool} {env : Env} {args : List Value} {e : Expr}
    {s t : Store} (h : analyzeFn deeper form isMacro env args s = .ok e t) :
    e.AllShaped policy := by
  obtain ⟨name, doc, clauses, arities, hwritten, rfl, hanalyzed⟩ := analyzeFn_eq_ok h
  have harity : ∀ a ∈ arities, a.Shaped ∧ a.body.AllShaped policy := by
    intro a ha
    obtain ⟨c, hc, hca⟩ := exists_of_mem_right hanalyzed ha
    obtain ⟨items, hparams⟩ := hwritten.params_written c hc
    exact hca.shaped hdeeper hparams
  refine .intro ⟨fun hnil => ?_, fun a ha => (harity a ha).1⟩ fun body hbody => ?_
  · rw [hnil] at hanalyzed
    exact hwritten.ne_nil (List.forall₂_nil_right_iff.1 hanalyzed)
  · obtain ⟨a, ha, rfl⟩ := List.mem_map.1 hbody
    exact (harity a ha).2

/-- The usual special forms, one by one. -/
theorem SpecialForm.analyze_shaped {form : SpecialForm} (husual : ∀ parse, form ≠ .custom parse)
    {env : Env} {args : List Value} {e : Expr} {s t : Store}
    (h : form.analyze deeper policy env args s = .ok e t) : e.AllShaped policy := by
  cases form with
  | block =>
    obtain ⟨exprs, s', hexprs, h⟩ := Run.bind_eq_ok h
    cases h
    exact .intro trivial (body_shaped hdeeper hexprs)
  | cond =>
    obtain ⟨_, s₁, hcount, h⟩ := Run.bind_eq_ok h
    obtain ⟨exprs, s₂, hexprs, h⟩ := Run.bind_eq_ok h
    cases h
    have hleast := (Run.expectCount_eq_ok hcount).1
    rw [(Run.mapM_eq_ok hexprs).length_eq] at hleast
    have hat (k : Nat) (hk : k < 2) : exprs[k]?.isSome = true := by
      rw [List.getElem?_eq_getElem (by omega)]
      rfl
    refine .intro ⟨hat 0 (by decide), hat 1 (by decide)⟩ fun child hchild =>
      body_shaped hdeeper hexprs child ?_
    simp only [Expr.children, List.mem_append, Option.mem_toList] at hchild
    rcases hchild with (hchild | hchild) | hchild <;> exact List.mem_of_getElem? hchild
  | define =>
    obtain ⟨_, s₁, -, h⟩ := Run.bind_eq_ok h
    split at h
    · next symbol value =>
      obtain ⟨exprs, s₂, hexprs, h⟩ := Run.bind_eq_ok h
      cases h
      refine .intro trivial fun child hchild => body_shaped hdeeper hexprs child ?_
      exact List.mem_of_mem_head? (Option.mem_toList.1 hchild)
    · cases h
    · cases h
  | function => exact analyzeFn_shaped hdeeper h
  | expander => exact analyzeFn_shaped hdeeper h
  | quote =>
    obtain ⟨_, s₁, -, h⟩ := Run.bind_eq_ok h
    cases h
    exact .intro trivial nofun
  | go =>
    obtain ⟨_, s₁, -, h⟩ := Run.bind_eq_ok h
    obtain ⟨body, s₂, hbody, h⟩ := Run.bind_eq_ok h
    cases h
    exact .intro rfl (List.forall_mem_singleton.2 (hdeeper _ _ _ body _ hbody))
  | custom parse => exact absurd rfl (husual parse)

end

/-! ## Analysis -/

namespace Analyzer

variable {a : Analyzer}

/-- One form is shaped if the forms inside it are, whatever it expands to. -/
theorem analyzeForm_shaped (ha : a.IsUsual) {expand : Env → Value → Run Value}
    {deeper : Env → Value → Run Expr} (hdeeper : MakesShaped a.spawnPolicy deeper) {env : Env}
    {form : Value} {e : Expr} {s t : Store}
    (h : a.analyzeForm expand deeper env form s = .ok e t) : e.AllShaped a.spawnPolicy := by
  have hleaf (v : Value) : (Expr.const v).AllShaped a.spawnPolicy := .intro trivial nofun
  unfold analyzeForm at h
  split at h
  · cases h
    exact hleaf .nil
  obtain ⟨expanded, s₁, -, h⟩ := Run.bind_eq_ok h
  split at h
  · cases h
    exact .intro trivial nofun
  · next head args =>
    cases hspecial : a.special? head with
    | some special =>
      rw [hspecial] at h
      exact special.analyze_shaped hdeeper (ha.ne_custom hspecial) h
    | none =>
      rw [hspecial] at h
      obtain ⟨target, s₂, htarget, h⟩ := Run.bind_eq_ok h
      obtain ⟨exprs, s₃, hexprs, h⟩ := Run.bind_eq_ok h
      cases h
      exact .intro trivial (List.forall_mem_cons.2
        ⟨hdeeper _ head _ target _ htarget, body_shaped hdeeper hexprs⟩)
  · next item items =>
    obtain ⟨exprs, s₂, hexprs, h⟩ := Run.bind_eq_ok h
    cases h
    refine .intro ⟨?_, List.cons_ne_nil item items⟩ (body_shaped hdeeper hexprs)
    exact (Run.mapM_eq_ok hexprs).length_eq.symm
  · cases h
    exact hleaf _

theorem analyze_shaped (ha : a.IsUsual) (host : Host) (limit left : Nat) :
    MakesShaped a.spawnPolicy (a.analyze host limit left) := by
  induction left with
  | zero =>
    intro env form s e t h
    cases h
  | succ left ih =>
    intro env form s e t h
    rw [analyze_succ] at h
    exact analyzeForm_shaped ha ih h

/-- Every node of an analyzed expression is shaped: tests have both a condition and a branch for it,
vector literals have items and one expression for each, functions have arities, whose bodies are
blocks and whose parameters can be bound, variadic ones have a parameter for the surplus, and tasks
are started under the policy of the analyzer. -/
theorem nodes_shaped (ha : a.IsUsual) (host : Host) (limit left : Nat) (env : Env) (form : Value)
    {s t : Store} {e : Expr} (h : (a.analyze host limit left env form : Run Expr) s = .ok e t)
    {n : Expr} (hn : e.HasNode n) : n.Shaped a.spawnPolicy :=
  analyze_shaped ha host limit left env form s e t h n hn

/-- `(fn [x & more] (if x (go more) [x]))` as a form. -/
def watchForm : Value :=
  .list [.symbol ⟨none, "fn"⟩,
    .vector [.symbol ⟨none, "x"⟩, .symbol ⟨none, "&"⟩, .symbol ⟨none, "more"⟩],
    .list [.symbol ⟨none, "if"⟩, .symbol ⟨none, "x"⟩,
      .list [.symbol ⟨none, "go"⟩, .symbol ⟨none, "more"⟩], .vector [.symbol ⟨none, "x"⟩]]]

/-- The test in its body, under the policy to report on channel 3. -/
def watchTest : Expr :=
  .cond (some (.resolve ⟨none, "x"⟩)) (some (.go (.resolve ⟨none, "more"⟩) (.report 3)))
    (some (.vector [.symbol ⟨none, "x"⟩] [.resolve ⟨none, "x"⟩]))

/-- A store in which `(watch)` expands to that form. -/
def watchStore : Store :=
  { roots := [⟨"user", [("user", [("watch",
    .fn ⟨0, none, none, true, [⟨[], false, some (.quote watchForm)⟩], some (.root 0)⟩)])]⟩] }

/-- All nodes of the function that the macro call `(watch)` stands for are shaped. -/
theorem nodes_shaped_watch :
    let a : Analyzer := { standard with spawnPolicy := .report 3 }
    ∃ e, (a.analyze standardHost 9 9 (.root 0) (.list [.symbol ⟨none, "watch"⟩]) : Run Expr)
        watchStore = .ok e watchStore ∧
      e.HasNode watchTest ∧ ∀ n, e.HasNode n → n.Shaped (.report 3) := by
  intro a
  have husual : a.IsUsual := standard_isUsual
  have hrun : (a.analyze standardHost 9 9 (.root 0) (.list [.symbol ⟨none, "watch"⟩]) : Run Expr)
      watchStore = .ok (.fn none none false
        [⟨[⟨none, "x"⟩, ⟨none, "more"⟩], true, .block [watchTest]⟩]) watchStore := by cbv
  refine ⟨_, hrun, ?_, fun n hn => ?_⟩
  · exact .inside (List.mem_singleton.2 rfl) (.inside (List.mem_singleton.2 rfl) (.self watchTest))
  · exact nodes_shaped husual standardHost 9 9 (.root 0) _ hrun hn

end Analyzer

end LispCore
