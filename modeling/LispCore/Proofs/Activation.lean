import LispCore.Proofs.Agreement

/-!
# Activations and how they end

Analysis, macro expansion and evaluation call each other, through closures kept in the store and
macro bodies run during analysis. Here each of them is an `Activation` whose body is a `Script`: the
code of one layer, written out up to the activations that it starts. `Ends` runs scripts by rules
that count depth and expansions upwards and nothing downwards, so a run that went on forever would
have no outcome. Each activation has one, what the recursive functions compute (`ends_eval`,
`ends_expand`, `ends_analyze`), and no other (`Ends.unique`).
-/

namespace LispCore

/-- A call of one of the functions that the evaluator is made of. `expand` is one round of macro
expansion: `form` is what `source` has become after `steps` rounds. -/
inductive Activation where
  | analyze (env : Env) (form : Value)
  | expand (env : Env) (source : Value) (steps : Nat) (form : Value)
  | eval (env : Env) (e : Expr)

namespace Activation

/-- The type of the answer of an activation. -/
abbrev Answer : Activation → Type
  | analyze _ _ => Expr
  | expand _ _ _ _ => Value
  | eval _ _ => Value

/-- Analysis and evaluation hold one level of depth each, rounds of expansion none. -/
def cost : Activation → Nat
  | analyze _ _ => 1
  | expand _ _ _ _ => 0
  | eval _ _ => 1

end Activation

/-- A computation written out: it is over, or it asks the store or starts an activation and goes on
with the answer. -/
inductive Script (α : Type) where
  | done (a : α)
  | fail (e : Error)
  | ask (r : Request) (next : r.Answer → Script α)
  | start (act : Activation) (next : act.Answer → Script α)

namespace Script

def bind {α β : Type} : Script α → (α → Script β) → Script β
  | done a, f => f a
  | fail e, _ => fail e
  | ask r next, f => ask r fun a => (next a).bind f
  | start act next, f => start act fun a => (next a).bind f

instance : MonadStore Script where
  pure := done
  bind := bind
  request r := ask r done
  fail := fail

end Script

/-- What the activations of a run have in common. -/
structure Setting where
  analyzer : Analyzer
  host : Host
  limit : Nat

namespace Setting

variable (S : Setting)

/-- The level at a depth, where evaluation one level deeper is an activation. -/
def level (depth : Nat) : Level Script :=
  ⟨S.host, ⟨depth, S.limit⟩, fun env e => .start (.eval env e) .done⟩

/-- One round of expansion: the rounds after it are activations of their own. -/
def expandRound (depth : Nat) (env : Env) (source : Value) (steps : Nat) (form : Value) :
    Script Value := do
  match (← (S.level depth).expandOnce env form) with
  | none => pure form
  | some next =>
    if steps < S.analyzer.maxExpansions then .start (.expand env source (steps + 1) next) .done
    else fail (.expansionLimit source.display S.analyzer.maxExpansions)

/-- The script of an activation whose body runs at a depth. -/
def body (depth : Nat) : (act : Activation) → Script act.Answer
  | .analyze env form =>
    S.analyzer.analyzeForm (fun env form => .start (.expand env form 0 form) .done)
      (fun env form => .start (.analyze env form) .done) env form
  | .expand env source steps form => S.expandRound depth env source steps form
  | .eval env e => (S.level depth).evalNode env e

theorem body_analyze (depth : Nat) (env : Env) (form : Value) :
    S.body depth (.analyze env form) =
      S.analyzer.analyzeForm (fun env form => Script.start (.expand env form 0 form) .done)
        (fun env form => .start (.analyze env form) .done) env form := rfl

/-- An activation may start at a depth if the levels it holds stay within the limit. -/
def Admits (depth : Nat) (act : Activation) : Prop := act.cost = 0 ∨ depth + act.cost ≤ S.limit

end Setting

/-- The outcomes of a script that runs at a depth, from a store. -/
inductive Ends (S : Setting) : {α : Type} → Nat → Script α → Store →
    EStateM.Result Error Store α → Prop where
  | done {α : Type} {depth : Nat} {a : α} {s : Store} : Ends S depth (.done a) s (.ok a s)
  | fail {α : Type} {depth : Nat} {e : Error} {s : Store} :
    Ends S depth (.fail e : Script α) s (.error e s)
  | ask {α : Type} {depth : Nat} {r : Request} {next : r.Answer → Script α} {s : Store}
      {out : EStateM.Result Error Store α} :
    Ends S depth (next (s.answer r).1) (s.answer r).2 out → Ends S depth (.ask r next) s out
  /-- The activation ends with an answer. -/
  | start {α : Type} {depth : Nat} {act : Activation} {next : act.Answer → Script α}
      {s s' : Store} {a : act.Answer} {out : EStateM.Result Error Store α} :
    S.Admits depth act →
    Ends S (depth + act.cost) (S.body (depth + act.cost) act) s (.ok a s') →
    Ends S depth (next a) s' out → Ends S depth (.start act next) s out
  /-- The activation fails, and what started it fails with it. -/
  | broken {α : Type} {depth : Nat} {act : Activation} {next : act.Answer → Script α}
      {s s' : Store} {e : Error} :
    S.Admits depth act →
    Ends S (depth + act.cost) (S.body (depth + act.cost) act) s (.error e s') →
    Ends S depth (.start act next) s (.error e s')
  /-- The activation would be nested too deep. -/
  | exceeded {α : Type} {depth : Nat} {act : Activation} {next : act.Answer → Script α}
      {s : Store} :
    ¬ S.Admits depth act →
    Ends S depth (.start act next) s (.error (.depthExceeded S.limit) s)

namespace Ends

variable {S : Setting} {α β : Type} {depth : Nat}

theorem bind_ok {x : Script α} {f : α → Script β} {s s' : Store} {a : α}
    {out : EStateM.Result Error Store β} (h : Ends S depth x s (.ok a s'))
    (hf : Ends S depth (f a) s' out) : Ends S depth (x >>= f) s out := by
  generalize hr : EStateM.Result.ok a s' = r at h
  induction h with
  | done => cases hr; exact hf
  | fail => cases hr
  | ask _ ih => exact .ask (ih hf hr)
  | start hadmits hbody _ _ ih => exact .start hadmits hbody (ih hf hr)
  | broken => cases hr
  | exceeded => cases hr

theorem bind_error {x : Script α} {f : α → Script β} {s s' : Store} {e : Error}
    (h : Ends S depth x s (.error e s')) : Ends S depth (x >>= f) s (.error e s') := by
  generalize hr : EStateM.Result.error e s' = r at h
  induction h with
  | done => cases hr
  | fail => cases hr; exact .fail
  | ask _ ih => exact .ask (ih hr)
  | start hadmits hbody _ _ ih => exact .start hadmits hbody (ih hr)
  | broken hadmits hbody => cases hr; exact .broken hadmits hbody
  | exceeded hadmits => cases hr; exact .exceeded hadmits

/-- A script has at most one outcome. -/
theorem unique {x : Script α} {s : Store} {out out' : EStateM.Result Error Store α}
    (h : Ends S depth x s out) (h' : Ends S depth x s out') : out' = out := by
  induction h with
  | done => cases h'; rfl
  | fail => cases h'; rfl
  | ask _ ih => cases h' with | ask h' => exact ih h'
  | start hadmits _ _ ihbody ihnext =>
    cases h' with
    | start _ hbody hnext =>
      cases ihbody hbody
      exact ihnext hnext
    | broken _ hbody => cases ihbody hbody
    | exceeded hn => exact absurd hadmits hn
  | broken hadmits _ ihbody =>
    cases h' with
    | start _ hbody _ => cases ihbody hbody
    | broken _ hbody => cases ihbody hbody; rfl
    | exceeded hn => exact absurd hadmits hn
  | exceeded hn =>
    cases h' with
    | start hadmits _ _ => exact absurd hadmits hn
    | broken hadmits _ => exact absurd hadmits hn
    | exceeded _ => rfl

end Ends

/-! ## Every activation ends -/

/-- A script agrees with a run when it ends, from every store, as the run does. -/
def ending (S : Setting) (depth : Nat) : Agreement Script Run where
  rel x y := ∀ s, Ends S depth x s (y s)
  pure _ _ := .done
  fail _ _ := .fail
  bind {_ _ x y f g} hx hf s := by
    have h := hx s
    change Ends S depth (x >>= f) s (EStateM.bind y g s)
    unfold EStateM.bind
    cases hy : y s with
    | ok a s' =>
      rw [hy] at h
      exact h.bind_ok (hf a s')
    | error e s' =>
      rw [hy] at h
      exact h.bind_error

section

variable {S : Setting} {depth : Nat}

theorem ending_request (r : Request) : (ending S depth).rel (request r) (request r) :=
  fun _ => .ask .done

/-- An activation that may start ends as its body does. -/
theorem ending_start {act : Activation} {y : Run act.Answer} (hadmits : S.Admits depth act)
    (h : (ending S (depth + act.cost)).rel (S.body (depth + act.cost) act) y) :
    (ending S depth).rel (.start act .done) y := by
  intro s
  have hbody := h s
  cases hy : y s with
  | ok a s' =>
    rw [hy] at hbody
    exact .start hadmits hbody .done
  | error e s' =>
    rw [hy] at hbody
    exact .broken hadmits hbody

theorem ending_exceeded {act : Activation} (h : ¬ S.Admits depth act) :
    (ending S depth).rel (.start act .done) (fail (.depthExceeded S.limit)) :=
  fun _ => .exceeded h

/-- Calls and tasks end once evaluation one level deeper does. -/
theorem level_ending {ev : Env → Expr → Run Value}
    (h : ∀ env e, (ending S depth).rel (.start (.eval env e) .done) (ev env e)) :
    Level.Agree (ending S depth) (S.level depth) ⟨S.host, ⟨depth, S.limit⟩, ev⟩ where
  eval := h
  apply := Level.apply_agree h fun _ _ => .inl rfl
  spawn _ _ _ := ending_request _

/-- Evaluation ends: each level of nesting uses up one of those left under the limit. -/
theorem ends_eval {left : Nat} (hleft : S.limit - depth = left) (env : Env) (e : Expr) :
    (ending S depth).rel (.start (.eval env e) .done) (eval S.host S.limit left env e) := by
  induction left generalizing depth env e with
  | zero =>
    rw [eval_zero]
    refine ending_exceeded ?_
    simp only [Setting.Admits, Activation.cost]
    omega
  | succ left ih =>
    have hdepth : S.limit - left = depth + 1 := by omega
    rw [eval_succ, hdepth]
    refine ending_start (.inr ?_) ?_
    · simp only [Activation.cost]
      omega
    have hdeeper : ∀ env e, (ending S (depth + 1)).rel (.start (.eval env e) .done)
        (eval S.host S.limit left env e) := ih (by omega)
    exact Level.evalNode_agree (fun r _ => ending_request r) (level_ending hdeeper) env e

/-- Expansion ends: each round uses up one of the expansions that are left. -/
theorem ends_expand {left steps : Nat} (hleft : S.analyzer.maxExpansions - steps = left)
    (env : Env) (source form : Value) :
    (ending S depth).rel (.start (.expand env source steps form) .done)
      ((Level.ofContext S.host ⟨depth, S.limit⟩).expandLoop S.analyzer.maxExpansions env source
        left form) := by
  have hround (form : Value) : (ending S depth).rel ((S.level depth).expandOnce env form)
      ((Level.ofContext S.host ⟨depth, S.limit⟩).expandOnce env form) :=
    Level.expandOnce_agree (fun r _ => ending_request r) (ends_eval rfl) env form
  induction left generalizing steps form with
  | zero =>
    refine ending_start (.inl rfl) ?_
    unfold Level.expandLoop
    refine (ending S depth).bind (hround form) fun next => ?_
    cases next with
    | none => exact (ending S depth).pure form
    | some next =>
      have hsteps : ¬ steps < S.analyzer.maxExpansions := by omega
      simp only [hsteps, if_false]
      exact (ending S depth).fail _
  | succ left ih =>
    refine ending_start (.inl rfl) ?_
    unfold Level.expandLoop
    refine (ending S depth).bind (hround form) fun next => ?_
    cases next with
    | none => exact (ending S depth).pure form
    | some next =>
      have hsteps : steps < S.analyzer.maxExpansions := by omega
      simp only [hsteps, if_true]
      exact ih (by omega) next

/-- Analysis ends: the depth bounds its nesting, and the bound on expansions its loops. -/
theorem ends_analyze {left : Nat} (hleft : S.limit - depth = left) (env : Env) (form : Value) :
    (ending S depth).rel (.start (.analyze env form) .done)
      (S.analyzer.analyze S.host S.limit left env form) := by
  induction left generalizing depth env form with
  | zero =>
    refine ending_exceeded ?_
    simp only [Setting.Admits, Activation.cost]
    omega
  | succ left ih =>
    have hdepth : S.limit - left = depth + 1 := by omega
    rw [Analyzer.analyze_succ, hdepth]
    refine ending_start (.inr ?_) ?_
    · simp only [Activation.cost]
      omega
    have hexpand : (ending S (depth + 1)).rel (.start (.expand env form 0 form) .done)
        (Level.expand ⟨S.host, ⟨depth + 1, S.limit⟩, eval S.host S.limit left⟩
          S.analyzer.maxExpansions env form) := by
      have hleft : S.limit - (depth + 1) = left := by omega
      rw [← hleft]
      exact ends_expand rfl env form form
    have hinner : InnerAgree (ending S (depth + 1)) Eq
        (fun env form => .start (.analyze env form) .done)
        (S.analyzer.analyze S.host S.limit left) := .of_eq (ih (by omega))
    rw [S.body_analyze]
    exact Analyzer.analyzeForm_agree rfl rfl (fun _ form _ => form.respects_eq) hexpand hinner rfl

end

/-! ## Termination -/

/-- From every store the script ends as the run does, and in no other way. -/
def EndsLike (S : Setting) {α : Type} (depth : Nat) (x : Script α) (y : Run α) : Prop :=
  ∀ s, Ends S depth x s (y s) ∧ ∀ out, Ends S depth x s out → out = y s

theorem endsLike_of_ending {S : Setting} {α : Type} {depth : Nat} {x : Script α} {y : Run α}
    (h : (ending S depth).rel x y) : EndsLike S depth x y :=
  fun s => ⟨h s, fun _ h' => (h s).unique h'⟩

/-- Analysis, macro expansion, evaluation and application all end, at every depth, under every
limit on nesting and every bound on expansions, in a value (or expression) or an error: the one
that the functions by recursion on the remaining levels and expansions give. A task started by
`go` is an evaluation at depth 0. -/
theorem activations_end (a : Analyzer) (host : Host) (limit depth : Nat) (env : Env) :
    (∀ form, EndsLike ⟨a, host, limit⟩ depth (.start (.analyze env form) .done)
      (a.analyze host limit (limit - depth) env form)) ∧
    (∀ form, EndsLike ⟨a, host, limit⟩ depth (.start (.expand env form 0 form) .done)
      (a.expand host ⟨depth, limit⟩ env form)) ∧
    (∀ e, EndsLike ⟨a, host, limit⟩ depth (.start (.eval env e) .done)
      (eval host limit (limit - depth) env e)) ∧
    ∀ f args, EndsLike ⟨a, host, limit⟩ depth
      ((Setting.level ⟨a, host, limit⟩ depth).apply f args)
      (apply host ⟨depth, limit⟩ f args) := by
  refine ⟨fun form => ?_, fun form => ?_, fun e => ?_, fun f args => ?_⟩
  · exact endsLike_of_ending (ends_analyze rfl env form)
  · exact endsLike_of_ending (ends_expand rfl env form form)
  · exact endsLike_of_ending (ends_eval rfl env e)
  · exact endsLike_of_ending ((level_ending (ends_eval rfl)).apply f args)

end LispCore
