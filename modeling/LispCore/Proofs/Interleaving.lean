import LispCore.Proofs.Activation
import LispCore.Proofs.Guarantee
import LispCore.Session

/-!
# Interleaved runs

A run and the tasks it starts go on side by side over one store. Each of them is a `Thread`: the
script it has reached and the stack of activations that wait for its answer. In a step of a
`System` one thread makes one move, or a task that waits in the store becomes a thread; a request
to the store is one move, so the requests of all threads may come in any order. The system notes
the activations that are started.

A run by itself is one of these orders (`System.reaches_run`), and so is running it and then the
tasks, one by one (`System.reaches_settle`). What threads keep whatever the
others do is said by `Script.Keeps`, and holds of every activation's body (`Setting.body_keeps`),
hence in every state that a system can reach (`System.Keeps.reaches`).
-/

namespace LispCore

/-- What waits for an answer of type `β`, up to the end of a thread whose result is an `α`: each
activation with the depth at which it goes on. -/
inductive Stack (α : Type) : Type → Type 1 where
  | bottom : Stack α α
  | push {β γ : Type} (depth : Nat) (next : β → Script γ) (rest : Stack α γ) : Stack α β

/-- A run in progress. -/
structure Thread (α : Type) : Type 1 where
  {Answer : Type}
  limit : Nat
  depth : Nat
  script : Script Answer
  stack : Stack α Answer

namespace Thread

variable {α : Type}

/-- A thread before its first move. -/
def ofScript (limit depth : Nat) (x : Script α) : Thread α := ⟨limit, depth, x, .bottom⟩

/-- A task runs from depth 0 under the limit it was given. -/
def ofTask (task : Task) : Thread Value :=
  ofScript task.limit 0 (.start (.eval task.env task.body) .done)

/-- How a thread ended, if it is over. -/
def outcome? : Thread α → Option (Except Error α)
  | ⟨_, _, .done a, .bottom⟩ => some (.ok a)
  | ⟨_, _, .fail e, .bottom⟩ => some (.error e)
  | _ => none

/-- One move of a thread, with the activations it starts. -/
inductive Move (a : Analyzer) (host : Host) :
    Store → Thread α → List Activation → Store → Thread α → Prop where
  | ask {β : Type} {s : Store} {limit depth : Nat} {r : Request} {next : r.Answer → Script β}
      {stack : Stack α β} :
    Move a host s ⟨limit, depth, .ask r next, stack⟩ []
      (s.answer r).2 ⟨limit, depth, next (s.answer r).1, stack⟩
  | start {β : Type} {s : Store} {limit depth : Nat} {act : Activation}
      {next : act.Answer → Script β} {stack : Stack α β} :
    Setting.Admits ⟨a, host, limit⟩ depth act →
    Move a host s ⟨limit, depth, .start act next, stack⟩ [act]
      s ⟨limit, depth + act.cost, Setting.body ⟨a, host, limit⟩ (depth + act.cost) act,
        .push depth next stack⟩
  | exceed {β : Type} {s : Store} {limit depth : Nat} {act : Activation}
      {next : act.Answer → Script β} {stack : Stack α β} :
    ¬ Setting.Admits ⟨a, host, limit⟩ depth act →
    Move a host s ⟨limit, depth, .start act next, stack⟩ []
      s ⟨limit, depth, .fail (.depthExceeded limit), stack⟩
  /-- An activation answers whatever started it. -/
  | answer {β γ : Type} {s : Store} {limit depth outer : Nat} {b : β} {next : β → Script γ}
      {rest : Stack α γ} :
    Move a host s ⟨limit, depth, .done b, .push outer next rest⟩ []
      s ⟨limit, outer, next b, rest⟩
  /-- A failure ends one activation after the other. -/
  | unwind {β γ : Type} {s : Store} {limit depth outer : Nat} {e : Error} {next : β → Script γ}
      {rest : Stack α γ} :
    Move a host s ⟨limit, depth, .fail e, .push outer next rest⟩ []
      s ⟨limit, outer, .fail e, rest⟩

/-- Moves of one thread with no other in between. -/
inductive Moves (a : Analyzer) (host : Host) :
    Store → Thread α → List Activation → Store → Thread α → Prop where
  | refl (s : Store) (t : Thread α) : Moves a host s t [] s t
  | head {s s' s'' : Store} {t t' t'' : Thread α} {new later : List Activation} :
    Move a host s t new s' t' → Moves a host s' t' later s'' t'' →
      Moves a host s t (later ++ new) s'' t''

variable {a : Analyzer} {host : Host} {s s' s'' : Store} {t t' t'' : Thread α}
  {new later : List Activation}

theorem Moves.trans (h : Moves a host s t new s' t') (h' : Moves a host s' t' later s'' t'') :
    Moves a host s t (later ++ new) s'' t'' := by
  induction h with
  | refl => rwa [List.append_nil]
  | head hmove _ ih =>
    rw [← List.append_assoc]
    exact .head hmove (ih h')

end Thread

/-- A run, the tasks that run beside it, and the activations started so far, the latest first. -/
structure System (α : Type) : Type 1 where
  store : Store
  main : Thread α
  tasks : List (Thread Value) := []
  started : List Activation := []

namespace System

variable {α : Type}

inductive Step (a : Analyzer) (host : Host) : System α → System α → Prop where
  | main {s s' : Store} {t t' : Thread α} {tasks : List (Thread Value)}
      {new started : List Activation} :
    t.Move a host s new s' t' →
    Step a host ⟨s, t, tasks, started⟩ ⟨s', t', tasks, new ++ started⟩
  | task {s s' : Store} {main : Thread α} {t t' : Thread Value}
      {before after : List (Thread Value)} {new started : List Activation} :
    t.Move a host s new s' t' →
    Step a host ⟨s, main, before ++ t :: after, started⟩
      ⟨s', main, before ++ t' :: after, new ++ started⟩
  /-- Any task that waits may begin. -/
  | launch {s : Store} {main : Thread α} {tasks : List (Thread Value)} {started : List Activation}
      {before after : List Task} {task : Task} :
    s.tasks = before ++ task :: after →
    Step a host ⟨s, main, tasks, started⟩
      ⟨{ s with tasks := before ++ after }, main, .ofTask task :: tasks, started⟩

inductive Reaches (a : Analyzer) (host : Host) : System α → System α → Prop where
  | refl (y : System α) : Reaches a host y y
  | tail {x y z : System α} : Reaches a host x y → Step a host y z → Reaches a host x z

variable {a : Analyzer} {host : Host}

theorem Reaches.trans {x y z : System α} (hxy : Reaches a host x y) (hyz : Reaches a host y z) :
    Reaches a host x z := by
  induction hyz with
  | refl => exact hxy
  | tail _ hstep ih => exact .tail ih hstep

theorem Reaches.moves_main {s s' : Store} {t t' : Thread α} {new : List Activation}
    (h : t.Moves a host s new s' t') (tasks : List (Thread Value)) (started : List Activation) :
    Reaches a host ⟨s, t, tasks, started⟩ ⟨s', t', tasks, new ++ started⟩ := by
  induction h generalizing started with
  | refl => exact .refl _
  | head hmove _ ih =>
    rw [List.append_assoc]
    exact ((Reaches.refl _).tail (.main hmove)).trans (ih _)

theorem Reaches.moves_task {s s' : Store} {t t' : Thread Value} {new : List Activation}
    (h : t.Moves a host s new s' t') (main : Thread α) (before after : List (Thread Value))
    (started : List Activation) :
    Reaches a host ⟨s, main, before ++ t :: after, started⟩
      ⟨s', main, before ++ t' :: after, new ++ started⟩ := by
  induction h generalizing started with
  | refl => exact .refl _
  | head hmove _ ih =>
    rw [List.append_assoc]
    exact ((Reaches.refl _).tail (.task hmove)).trans (ih _)

end System

/-- What is left of a script that has ended. -/
def Script.ofResult {α : Type} : EStateM.Result Error Store α → Script α
  | .ok a _ => .done a
  | .error e _ => .fail e

def Store.ofResult {α : Type} : EStateM.Result Error Store α → Store
  | .ok _ s => s
  | .error _ s => s

theorem Run.final_eq {α : Type} (x : Run α) (s : Store) : x.final s = .ofResult (x s) := by
  unfold final
  cases x s <;> rfl

/-- A thread that is not interrupted ends as its script does. -/
theorem Thread.moves_of_ends {α β : Type} {S : Setting} {depth : Nat} {x : Script β} {s : Store}
    {out : EStateM.Result Error Store β} (h : Ends S depth x s out) (stack : Stack α β) :
    ∃ new, Moves S.analyzer S.host s ⟨S.limit, depth, x, stack⟩ new (.ofResult out)
      ⟨S.limit, depth, .ofResult out, stack⟩ := by
  induction h with
  | done => exact ⟨[], .refl _ _⟩
  | fail => exact ⟨[], .refl _ _⟩
  | ask _ ih =>
    obtain ⟨new, hmoves⟩ := ih stack
    exact ⟨_, .head .ask hmoves⟩
  | start hadmits _ _ ihbody ihnext =>
    obtain ⟨new, hbody⟩ := ihbody (.push _ _ stack)
    obtain ⟨later, hnext⟩ := ihnext stack
    exact ⟨_, .head (.start hadmits) (hbody.trans (.head .answer hnext))⟩
  | broken hadmits _ ihbody =>
    obtain ⟨new, hbody⟩ := ihbody (.push _ _ stack)
    exact ⟨_, .head (.start hadmits) (hbody.trans (.head .unwind (.refl _ _)))⟩
  | exceeded hadmits => exact ⟨_, .head (.exceed hadmits) (.refl _ _)⟩

/-! ## What threads keep -/

/-- A node that defines a symbol over a root has been evaluated. -/
def Declared (started : List Activation) (root : Nat) (symbol : Symbol) : Prop :=
  ∃ env value, Activation.eval env (.define symbol value) ∈ started ∧ env.rootId = root

theorem Declared.mono {started started' : List Activation} {root : Nat} {symbol : Symbol}
    (h : Declared started root symbol) (hsub : started ⊆ started') :
    Declared started' root symbol := by
  obtain ⟨env, value, hmem, hroot⟩ := h
  exact ⟨env, value, hsub hmem, hroot⟩

/-- Definitions are made for a node that declares them, other requests may always be made. -/
def Request.Announced (started : List Activation) : Request → Prop
  | .define root symbol _ => ∃ declared, Declared started root declared ∧ declared.trimmed = symbol
  | _ => True

theorem Request.Announced.mono {started started' : List Activation} {r : Request}
    (h : r.Announced started) (hsub : started ⊆ started') : r.Announced started' := by
  cases r with
  | define root symbol v =>
    obtain ⟨declared, hdeclared, hsymbol⟩ := h
    exact ⟨declared, hdeclared.mono hsub, hsymbol⟩
  | _ => trivial

namespace Realm

variable (W : Realm)

/-- An activation of what is in a realm. -/
def activation : Activation → Prop
  | .analyze env form => W.env env ∧ W.value form
  | .expand env _ _ form => W.env env ∧ W.value form
  | .eval env e => W.env env ∧ W.expr e

/-- An answer of an activation that stays in a realm. -/
def answer : (act : Activation) → act.Answer → Prop
  | .analyze _ _, e => W.expr e
  | .expand _ _ _ _, v => W.value v
  | .eval _ _, v => W.value v

end Realm

/-- A script that stays in a realm whatever it is answered, makes announced definitions only, and
whose answer satisfies `Q`. -/
def Script.Keeps (W : Realm) (started : List Activation) {α : Type} (Q : α → Prop) :
    Script α → Prop
  | .done a => Q a
  | .fail e => W.error e
  | .ask r next =>
    W.request r ∧ r.Announced started ∧ ∀ a, W.reply r a → (next a).Keeps W started Q
  | .start act next => W.activation act ∧ ∀ a, W.answer act a → (next a).Keeps W started Q

namespace Script.Keeps

variable {W : Realm} {started started' : List Activation} {α β : Type}

theorem mono {x : Script α} {Q : α → Prop} (h : x.Keeps W started Q) (hsub : started ⊆ started') :
    x.Keeps W started' Q := by
  induction x with
  | done a => exact h
  | fail e => exact h
  | ask r next ih => exact ⟨h.1, h.2.1.mono hsub, fun a ha => ih a (h.2.2 a ha)⟩
  | start act next ih => exact ⟨h.1, fun a ha => ih a (h.2 a ha)⟩

theorem bind {x : Script α} {f : α → Script β} {P : α → Prop} {Q : β → Prop}
    (hx : x.Keeps W started P) (hf : ∀ a, P a → (f a).Keeps W started Q) :
    (x >>= f).Keeps W started Q := by
  induction x with
  | done a => exact hf a hx
  | fail e => exact hx
  | ask r next ih => exact ⟨hx.1, hx.2.1, fun a ha => ih a (hx.2.2 a ha)⟩
  | start act next ih => exact ⟨hx.1, fun a ha => ih a (hx.2 a ha)⟩

end Script.Keeps

/-- Scripts that stay in the realm. -/
def Guarantee.scripted (W : Realm) (started : List Activation) : Guarantee Script W where
  holds x Q := x.Keeps W started Q
  pure ha := ha
  bind := Script.Keeps.bind
  fail he := he
  ask {r} hr hdefine _ := by
    refine ⟨hr, ?_, fun _ ha => ha⟩
    cases r with
    | define root symbol v => exact absurd rfl (hdefine root symbol v)
    | _ => trivial
  spawn henv hbody := ⟨⟨henv, hbody⟩, trivial, fun _ ha => ha⟩

namespace Setting

variable {W : Realm} {S : Setting} {started : List Activation}

theorem start_keeps (act : Activation) (h : W.activation act) :
    (Script.start act .done).Keeps W started (W.answer act) := ⟨h, fun _ ha => ha⟩

/-- The body of an activation that has been noted stays in the realm. -/
theorem body_keeps (hallows : W.Allows S.analyzer) (hadmits : W.Admits S.host) (depth : Nat)
    {act : Activation} (hact : W.activation act) (hmem : act ∈ started) :
    (S.body depth act).Keeps W started (W.answer act) := by
  have heval (env : Env) (e : Expr) (henv : W.env env) (he : W.expr e) :
      (Guarantee.scripted W started).holds ((S.level depth).eval env e) W.value :=
    start_keeps (.eval env e) ⟨henv, he⟩
  cases act with
  | analyze env form =>
    have hexpand : (Script.start (.expand env form 0 form) .done).Keeps W started W.value :=
      start_keeps (.expand env form 0 form) hact
    have hdeeper (env : Env) (form : Value) (henv : W.env env) (hform : W.value form) :
        (Script.start (.analyze env form) .done).Keeps W started W.expr :=
      start_keeps (.analyze env form) ⟨henv, hform⟩
    have hform : (Guarantee.scripted W started).holds (S.analyzer.analyzeForm
        (fun env form => Script.start (.expand env form 0 form) .done)
        (fun env form => .start (.analyze env form) .done) env form) W.expr :=
      Analyzer.analyzeForm_keeps hallows hact.1 hexpand hdeeper
    exact hform
  | expand env source steps form =>
    refine (Level.expandOnce_keeps heval hact.1 hact.2).bind fun next hnext => ?_
    cases next with
    | none => exact hact.2
    | some next =>
      dsimp only
      split
      · exact start_keeps (.expand env source (steps + 1) next) ⟨hact.1, hnext next rfl⟩
      · exact W.plain nofun nofun
  | eval env e =>
    refine Level.evalNode_keeps heval hadmits hact.1 hact.2 (fun symbol value hnode v hv => ?_)
      fun body policy hnode => ?_
    · subst hnode
      refine ⟨⟨W.trimmed (W.define_iff.1 hact.2).1, hv⟩, ?_, fun _ ha => ha⟩
      exact ⟨symbol, ⟨env, value, hmem, rfl⟩, rfl⟩
    · subst hnode
      exact (Guarantee.scripted W started).spawn (W.child _ hact.1 nofun) (W.go_iff.1 hact.2)

end Setting

/-- A stack that, given an answer that satisfies `P`, stays in a realm and ends with a result that
satisfies `Q`. -/
def Stack.Keeps (W : Realm) (started : List Activation) {α : Type} (Q : α → Prop) :
    {β : Type} → (β → Prop) → Stack α β → Prop
  | _, P, .bottom => ∀ a, P a → Q a
  | _, P, .push _ next rest =>
    ∃ R, (∀ b, P b → (next b).Keeps W started R) ∧ rest.Keeps W started Q R

theorem Stack.Keeps.mono {W : Realm} {started started' : List Activation} {α β : Type}
    {Q : α → Prop} {P : β → Prop} {stack : Stack α β} (h : stack.Keeps W started Q P)
    (hsub : started ⊆ started') : stack.Keeps W started' Q P := by
  induction stack with
  | bottom => exact h
  | push depth next rest ih =>
    obtain ⟨R, hnext, hrest⟩ := h
    exact ⟨R, fun b hb => (hnext b hb).mono hsub, ih hrest⟩

/-- A thread that stays in a realm and whose result satisfies `Q`. -/
def Thread.Keeps (W : Realm) (started : List Activation) {α : Type} (Q : α → Prop)
    (t : Thread α) : Prop :=
  ∃ P, t.script.Keeps W started P ∧ t.stack.Keeps W started Q P

namespace Thread

variable {W : Realm} {started started' : List Activation} {α : Type} {Q : α → Prop}

theorem Keeps.mono {t : Thread α} (h : t.Keeps W started Q) (hsub : started ⊆ started') :
    t.Keeps W started' Q := by
  obtain ⟨P, hscript, hstack⟩ := h
  exact ⟨P, hscript.mono hsub, hstack.mono hsub⟩

theorem keeps_ofTask {task : Task} (henv : W.env task.env) (hbody : W.expr task.body) :
    (ofTask task).Keeps W started W.value :=
  ⟨W.value, Setting.start_keeps (.eval task.env task.body) ⟨henv, hbody⟩, fun _ ha => ha⟩

theorem Keeps.outcome {t : Thread α} (h : t.Keeps W started Q) {r : Except Error α}
    (hr : t.outcome? = some r) : Fits W.error Q r := by
  obtain ⟨P, hscript, hstack⟩ := h
  unfold outcome? at hr
  split at hr
  · cases hr
    exact hstack _ hscript
  · cases hr
    exact hscript
  · cases hr

/-- One move keeps a thread and the store in the realm. -/
theorem Keeps.move {a : Analyzer} {host : Host} (hallows : W.Allows a) (hadmits : W.Admits host)
    {s s' : Store} {t t' : Thread α} {new : List Activation} (hmove : t.Move a host s new s' t')
    (h : t.Keeps W started Q) (hs : s.Within W) :
    t'.Keeps W (new ++ started) Q ∧ s'.Within W := by
  obtain ⟨P, hscript, hstack⟩ := h
  cases hmove with
  | ask =>
    obtain ⟨hr, -, hnext⟩ := hscript
    have hanswer := hs.answer hr
    exact ⟨⟨P, hnext _ hanswer.1, hstack⟩, hanswer.2⟩
  | start =>
    obtain ⟨hact, hnext⟩ := hscript
    refine ⟨⟨_, Setting.body_keeps hallows hadmits _ hact List.mem_cons_self, P, ?_, ?_⟩, hs⟩
    · exact fun b hb => (hnext b hb).mono (List.subset_cons_self _ _)
    · exact hstack.mono (List.subset_cons_self _ _)
  | exceed => exact ⟨⟨P, W.plain nofun nofun, hstack⟩, hs⟩
  | answer =>
    obtain ⟨R, hnext, hrest⟩ := hstack
    exact ⟨⟨R, hnext _ hscript, hrest⟩, hs⟩
  | unwind =>
    obtain ⟨R, hnext, hrest⟩ := hstack
    exact ⟨⟨R, hscript, hrest⟩, hs⟩

end Thread

namespace System

variable {W : Realm} {α : Type} {Q : α → Prop} {a : Analyzer} {host : Host}

/-- A system whose store and threads stay in a realm. -/
structure Keeps (W : Realm) (Q : α → Prop) (y : System α) : Prop where
  store : y.store.Within W
  main : y.main.Keeps W y.started Q
  tasks : ∀ t ∈ y.tasks, t.Keeps W y.started W.value

theorem Keeps.step (hallows : W.Allows a) (hadmits : W.Admits host) {y z : System α}
    (hstep : Step a host y z) (h : y.Keeps W Q) : z.Keeps W Q := by
  cases hstep with
  | main hmove =>
    obtain ⟨hmain, hstore⟩ := h.main.move hallows hadmits hmove h.store
    exact ⟨hstore, hmain, fun t ht => (h.tasks t ht).mono (List.subset_append_right _ _)⟩
  | task hmove =>
    obtain ⟨hbefore, hrest⟩ := List.forall_mem_append.1 h.tasks
    obtain ⟨hmoving, hafter⟩ := List.forall_mem_cons.1 hrest
    obtain ⟨hmoved, hstore⟩ := hmoving.move hallows hadmits hmove h.store
    refine ⟨hstore, h.main.mono (List.subset_append_right _ _),
      List.forall_mem_append.2 ⟨fun t ht => ?_, List.forall_mem_cons.2 ⟨hmoved, fun t ht => ?_⟩⟩⟩
    · exact (hbefore t ht).mono (List.subset_append_right _ _)
    · exact (hafter t ht).mono (List.subset_append_right _ _)
  | launch htasks =>
    have hwaiting := h.store.tasks
    rw [htasks] at hwaiting
    obtain ⟨hbefore, hrest⟩ := List.forall_mem_append.1 hwaiting
    obtain ⟨htask, hafter⟩ := List.forall_mem_cons.1 hrest
    refine ⟨⟨h.store.globals, List.forall_mem_append.2 ⟨hbefore, hafter⟩⟩, h.main, ?_⟩
    exact List.forall_mem_cons.2 ⟨Thread.keeps_ofTask htask.1 htask.2, h.tasks⟩

theorem Keeps.reaches (hallows : W.Allows a) (hadmits : W.Admits host) {y z : System α}
    (hreach : Reaches a host y z) (h : y.Keeps W Q) : z.Keeps W Q := by
  induction hreach with
  | refl => exact h
  | tail _ hstep ih => exact ih.step hallows hadmits hstep

end System

/-! ## The ways into the evaluator -/

/-- What a host can ask the evaluator to do. -/
inductive Entry where
  | analyze (env : Env) (form : Value)
  | expandOnce (env : Env) (form : Value)
  | expand (env : Env) (form : Value)
  | eval (env : Env) (e : Expr)
  /-- Analyzes and evaluates forms in order. -/
  | evalAll (env : Env) (forms : List Value)
  | apply (f : Value) (args : List Value)

namespace Entry

abbrev Answer : Entry → Type
  | analyze _ _ => Expr
  | expandOnce _ _ => Option Value
  | _ => Value

/-- What the evaluator does for it. -/
def run (a : Analyzer) (host : Host) (c : Context) : (x : Entry) → Run x.Answer
  | analyze env form => a.analyze host c.limit c.left env form
  | expandOnce env form => (Level.ofContext host c).expandOnce env form
  | expand env form => a.expand host c env form
  | eval env e => LispCore.eval host c.limit c.left env e
  | evalAll env forms => forms.foldlM (fun _ form => a.evalTop host c env form) .nil
  | apply f args => LispCore.apply host c f args

/-- The same, written out up to the activations that it starts. -/
def script (S : Setting) (depth : Nat) : (x : Entry) → Script x.Answer
  | analyze env form => .start (.analyze env form) .done
  | expandOnce env form => (S.level depth).expandOnce env form
  | expand env form => .start (.expand env form 0 form) .done
  | eval env e => .start (.eval env e) .done
  | evalAll env forms => forms.foldlM (fun _ form => do
      let e ← Script.start (.analyze env form) .done
      .start (.eval env e) .done) .nil
  | apply f args => (S.level depth).apply f args

variable {S : Setting} {depth : Nat}

theorem ending_script (x : Entry) :
    (ending S depth).rel (x.script S depth) (x.run S.analyzer S.host ⟨depth, S.limit⟩) := by
  have hrequest : (ending S depth).Answers := fun r _ => ending_request r
  cases x with
  | analyze env form => exact ends_analyze rfl env form
  | expandOnce env form => exact Level.expandOnce_agree hrequest (ends_eval rfl) env form
  | expand env form => exact ends_expand rfl env form form
  | eval env e => exact ends_eval rfl env e
  | evalAll env forms =>
    refine Agreement.foldlM (fun _ form _ => ?_) _
    exact (ending S depth).bind (ends_analyze rfl env form) fun e => ends_eval rfl env e
  | apply f args => exact (level_ending (ends_eval rfl)).apply f args

end Entry

namespace Realm

variable (W : Realm)

/-- An entry with what is in a realm. -/
def entry : Entry → Prop
  | .analyze env form => W.env env ∧ W.value form
  | .expandOnce env form => W.env env ∧ W.value form
  | .expand env form => W.env env ∧ W.value form
  | .eval env e => W.env env ∧ W.expr e
  | .evalAll env forms => W.env env ∧ ∀ v ∈ forms, W.value v
  | .apply f args => W.value f ∧ ∀ v ∈ args, W.value v

/-- A result that stays in a realm. -/
def result : (x : Entry) → x.Answer → Prop
  | .analyze _ _, e => W.expr e
  | .expandOnce _ _, next => ∀ v ∈ next, W.value v
  | .expand _ _, v => W.value v
  | .eval _ _, v => W.value v
  | .evalAll _ _, v => W.value v
  | .apply _ _, v => W.value v

end Realm

theorem Realm.all_entry (x : Entry) : Realm.all.entry x := by
  cases x <;> exact ⟨trivial, by simp [Realm.all]⟩

theorem Entry.script_keeps {W : Realm} {S : Setting} (hadmits : W.Admits S.host)
    (started : List Activation) (depth : Nat) {x : Entry} (hx : W.entry x) :
    (x.script S depth).Keeps W started (W.result x) := by
  have heval (env : Env) (e : Expr) (henv : W.env env) (he : W.expr e) :
      (Guarantee.scripted W started).holds ((S.level depth).eval env e) W.value :=
    Setting.start_keeps (.eval env e) ⟨henv, he⟩
  cases x with
  | analyze env form => exact Setting.start_keeps (.analyze env form) hx
  | expandOnce env form => exact Level.expandOnce_keeps heval hx.1 hx.2
  | expand env form => exact Setting.start_keeps (.expand env form 0 form) hx
  | eval env e => exact Setting.start_keeps (.eval env e) hx
  | evalAll env forms =>
    refine Judgement.foldlM (G := (Guarantee.scripted W started).toJudgement)
      (fun _ _ form hform => ?_) W.nil
    have hanalyze : (Script.start (.analyze env form) .done).Keeps W started W.expr :=
      Setting.start_keeps (.analyze env form) ⟨hx.1, hx.2 form hform⟩
    exact hanalyze.bind fun e he => heval env e hx.1 he
  | apply f args => exact Level.apply_keeps hadmits heval hx.1 hx.2

namespace System

/-- A system before its first step: one run, at a depth, from a store. -/
def init (S : Setting) (depth : Nat) (x : Entry) (s : Store) : System x.Answer :=
  ⟨s, .ofScript S.limit depth (x.script S depth), [], []⟩

variable {S : Setting} {depth : Nat} {x : Entry} {s : Store}

/-- The system reaches the end that the run by itself comes to. -/
theorem reaches_run (S : Setting) (depth : Nat) (x : Entry) (s : Store) :
    ∃ y, Reaches S.analyzer S.host (init S depth x s) y ∧
      y.store = (x.run S.analyzer S.host ⟨depth, S.limit⟩).final s ∧
      y.main.outcome? = some ((x.run S.analyzer S.host ⟨depth, S.limit⟩).answer s) := by
  obtain ⟨new, hmoves⟩ := Thread.moves_of_ends (x.ending_script s) .bottom
  refine ⟨_, .moves_main hmoves [] [], ?_, ?_⟩
  · exact (Run.final_eq _ s).symm
  · cases h : x.run S.analyzer S.host ⟨depth, S.limit⟩ s <;> simp only [Run.answer, h] <;> rfl

theorem Keeps.init {W : Realm} (hadmits : W.Admits S.host) (hx : W.entry x) (hs : s.Within W) :
    (init S depth x s).Keeps W (W.result x) :=
  ⟨hs, ⟨W.result x, Entry.script_keeps hadmits [] depth hx, fun _ ha => ha⟩, nofun⟩

end System

/-! ## Tasks one by one -/

namespace Store

/-- The store after a task has run to its end. -/
def afterTask (host : Host) (s : Store) (task : Task) : Store :=
  (eval host task.limit task.limit task.env task.body : Run Value).final s

/-- The store after the waiting tasks have run one by one, in the order in which they were started,
then those that they started, and so on for some rounds. -/
def settle (host : Host) : (rounds : Nat) → Store → Store
  | 0, s => s
  | rounds + 1, s => match s.tasks with
    | [] => s
    | tasks => settle host rounds (tasks.reverse.foldl (afterTask host) { s with tasks := [] })

end Store

/-- A session runs a task to its end and delivers its outcome. -/
theorem Session.runTask_eq (s : Session) (task : Task) :
    let run : Run Value := eval standardHost task.limit task.limit task.env task.body
    s.runTask task =
      (s.setStore (run.final s.handles.store)).deliver task.policy (run.answer s.handles.store) := by
  dsimp only
  unfold runTask Run.final Run.answer
  cases (eval standardHost task.limit task.limit task.env task.body : Run Value)
      s.handles.store <;> rfl

theorem Session.handles_deliver (s : Session) (policy : SpawnPolicy) (o : Outcome) :
    (s.deliver policy o).handles = s.handles := by
  cases policy <;> rfl

namespace System

variable {α : Type} {a : Analyzer} {host : Host}

/-- All waiting tasks may begin. -/
theorem reaches_launch {waiting : List Task} {s : Store} (hs : s.tasks = waiting)
    (main : Thread α) (tasks : List (Thread Value)) (started : List Activation) :
    Reaches a host ⟨s, main, tasks, started⟩
      ⟨{ s with tasks := [] }, main, waiting.reverse.map .ofTask ++ tasks, started⟩ := by
  induction waiting generalizing s tasks with
  | nil =>
    have hstore : { s with tasks := [] } = s := by rw [← hs]
    rw [hstore]
    exact .refl _
  | cons task waiting ih =>
    have hlaunch : Step a host ⟨s, main, tasks, started⟩
        ⟨{ s with tasks := waiting }, main, .ofTask task :: tasks, started⟩ :=
      .launch (show s.tasks = [] ++ task :: waiting from hs)
    have hrest := ih (s := { s with tasks := waiting }) rfl (.ofTask task :: tasks)
    rw [List.reverse_cons, List.map_append, List.append_assoc]
    exact ((Reaches.refl _).tail hlaunch).trans hrest

/-- Tasks that have begun may run one after the other. -/
theorem reaches_foldl (order : List Task) (s : Store) (main : Thread α)
    (before after : List (Thread Value)) (started : List Activation) :
    ∃ tasks' started', Reaches a host
      ⟨s, main, before ++ (order.map .ofTask ++ after), started⟩
      ⟨order.foldl (Store.afterTask host) s, main, tasks', started'⟩ := by
  induction order generalizing s before started with
  | nil => exact ⟨_, _, .refl _⟩
  | cons task order ih =>
    let out := (eval host task.limit task.limit task.env task.body : Run Value) s
    let ended : Thread Value := ⟨task.limit, 0, .ofResult out, .bottom⟩
    have hends : Ends ⟨a, host, task.limit⟩ 0 (.start (.eval task.env task.body) .done) s out :=
      ends_eval (S := ⟨a, host, task.limit⟩) rfl task.env task.body s
    obtain ⟨new, hmoves⟩ := Thread.moves_of_ends hends .bottom
    obtain ⟨tasks, started', hrest⟩ := ih (.ofResult out) (before ++ [ended]) (new ++ started)
    rw [← List.append_cons] at hrest
    rw [List.foldl_cons, Store.afterTask, Run.final_eq]
    exact ⟨tasks, started', (Reaches.moves_task hmoves main before _ started).trans hrest⟩

/-- The waiting tasks may run one by one. -/
theorem reaches_settle (rounds : Nat) (y : System α) :
    ∃ z, Reaches a host y z ∧ z.store = y.store.settle host rounds ∧ z.main = y.main := by
  induction rounds generalizing y with
  | zero => exact ⟨y, .refl y, rfl, rfl⟩
  | succ rounds ih =>
    rw [Store.settle]
    cases hwaiting : y.store.tasks with
    | nil => exact ⟨y, .refl y, rfl, rfl⟩
    | cons task rest =>
      have hlaunch : Reaches a host y _ := reaches_launch hwaiting y.main y.tasks y.started
      obtain ⟨tasks, started, hrun⟩ := reaches_foldl (task :: rest).reverse
        { y.store with tasks := [] } y.main [] y.tasks y.started
      obtain ⟨z, hreach, hstore, hmain⟩ := ih _
      exact ⟨z, (hlaunch.trans hrun).trans hreach, hstore, hmain⟩

end System

end LispCore
