import LispCore.Proofs.Agreement
import LispCore.Proofs.Guarantee

/-!
# Workers

A worker is one thread of evaluation at work. It has two cells, the depth it has reached and the
limit in force, and a stack of calls that wait for answers. Entering a call takes something that
leaving it, with an answer or an error, gives back: analysis and evaluation count one level of depth
and fail if that is one too many, and the functions of an interpreter put its own limit in force. A
request to the store, a look at the cells and a call of a host function are moves of their own, so
other workers may act in between.

Each of the functions that a program can call is written out as a `Routine`. A worker that is not
interrupted comes to the answer of the function, in the same store (`EntryPoint.moves_run`).
-/

namespace LispCore

/-! ## Calls -/

/-- A call that holds something until it returns. The last three are those of an interpreter. -/
inductive Job where
  | analyze (a : Analyzer) (env : Env) (form : Value)
  | eval (env : Env) (e : Expr)
  | evalForm (i : Interpreter) (form : Value)
  | analyzeForm (i : Interpreter) (form : Value)
  | apply (i : Interpreter) (f : Value) (args : List Value)

namespace Job

/-- The type of the answer of a call. -/
abbrev Answer : Job → Type
  | analyze _ _ _ => Expr
  | eval _ _ => Value
  | evalForm _ _ => Value
  | analyzeForm _ _ => Expr
  | apply _ _ _ => Value

/-- The limit that a call puts in force. Calls without one count a level of depth. -/
def limit? : Job → Option Nat
  | analyze _ _ _ => none
  | eval _ _ => none
  | evalForm i _ => some i.maxDepth
  | analyzeForm i _ => some i.maxDepth
  | apply i _ _ => some i.maxDepth

/-- Takes what a call holds. A level is counted before it is checked, and the count is taken back if
it was one too many. -/
def acquire (job : Job) : EStateM Error Context Unit :=
  match job.limit? with
  | some limit => modify fun c => { c with limit }
  | none => do
    modify fun c => { c with depth := c.depth + 1 }
    let c ← get
    if c.limit < c.depth then
      modify fun c => { c with depth := c.depth - 1 }
      throw (.depthExceeded c.limit)

/-- Gives back what a call held; `previous` is the limit that was in force before it. -/
def release (job : Job) (previous : Nat) (c : Context) : Context :=
  match job.limit? with
  | some _ => { c with limit := previous }
  | none => { c with depth := c.depth - 1 }

/-- Analyses and evaluations, which are the calls that count a level. -/
def isActivation : Job → Bool
  | analyze _ _ _ => true
  | eval _ _ => true
  | _ => false

variable {job : Job} {c : Context}

theorem acquire_eq : job.acquire c =
    match job.limit? with
    | some limit => .ok () { c with limit }
    | none =>
      if c.depth < c.limit then .ok () { c with depth := c.depth + 1 }
      else .error (.depthExceeded c.limit) c := by
  unfold acquire
  cases job.limit? with
  | some limit => rfl
  | none =>
    change (if c.limit < c.depth + 1 then _ else _ : EStateM Error Context Unit)
      { c with depth := c.depth + 1 } = _
    by_cases h : c.depth < c.limit
    · rw [if_neg (by omega), if_pos h]
      rfl
    · rw [if_pos (by omega), if_neg h]
      rfl

/-- A call that is entered puts its limit in force, or counts a level below the limit. -/
theorem acquire_cases {c' : Context} (h : job.acquire c = .ok () c') :
    (∃ limit, job.limit? = some limit ∧ c' = { c with limit }) ∨
      (job.limit? = none ∧ c.depth < c.limit ∧ c' = { c with depth := c.depth + 1 }) := by
  rw [acquire_eq] at h
  cases hlimit : job.limit? with
  | some limit =>
    rw [hlimit] at h
    cases h
    exact .inl ⟨limit, rfl, rfl⟩
  | none =>
    rw [hlimit] at h
    dsimp only at h
    split at h
    · next hlt =>
      cases h
      exact .inr ⟨rfl, hlt, rfl⟩
    · cases h

/-- What is taken can be given back. -/
theorem release_of_acquire {c' : Context} (h : job.acquire c = .ok () c') :
    job.release c.limit c' = c := by
  unfold release
  obtain ⟨limit, hlimit, rfl⟩ | ⟨hlimit, -, rfl⟩ := acquire_cases h
  · rw [hlimit]
  · rw [hlimit]
    rfl

/-- A call that is refused takes nothing. -/
theorem eq_of_acquire_error {c' : Context} {e : Error} (h : job.acquire c = .error e c') :
    c' = c := by
  rw [acquire_eq] at h
  cases hlimit : job.limit? with
  | some limit =>
    rw [hlimit] at h
    cases h
  | none =>
    rw [hlimit] at h
    dsimp only at h
    split at h
    · cases h
    · cases h
      rfl

end Job

/-! ## Routines -/

/-- A computation written out: it is over, or it asks the store, looks at the cells, calls a host
function or makes a call, and goes on with the answer. -/
inductive Routine (α : Type) where
  | done (a : α)
  | fail (e : Error)
  | ask (r : Request) (next : r.Answer → Routine α)
  | look (next : Context → Routine α)
  | native (name : String) (args : List Value) (next : Reply args → Routine α)
  | call (job : Job) (next : job.Answer → Routine α)

namespace Routine

variable {α β γ : Type}

def bind : Routine α → (α → Routine β) → Routine β
  | done a, f => f a
  | fail e, _ => fail e
  | ask r next, f => ask r fun a => (next a).bind f
  | look next, f => look fun c => (next c).bind f
  | native name args next, f => native name args fun reply => (next reply).bind f
  | call job next, f => call job fun a => (next a).bind f

instance : MonadStore Routine where
  pure := done
  bind := bind
  request r := ask r done
  fail := fail

theorem bind_done (x : Routine α) : x >>= done = x := by
  induction x with
  | done a => rfl
  | fail e => rfl
  | ask r next ih => exact congrArg (ask r) (funext ih)
  | look next ih => exact congrArg look (funext ih)
  | native name args next ih => exact congrArg (native name args) (funext ih)
  | call job next ih => exact congrArg (call job) (funext ih)

theorem bind_assoc (x : Routine α) (f : α → Routine β) (g : β → Routine γ) :
    x >>= f >>= g = x >>= fun a => f a >>= g := by
  induction x with
  | done a => rfl
  | fail e => rfl
  | ask r next ih => exact congrArg (ask r) (funext ih)
  | look next ih => exact congrArg look (funext ih)
  | native name args next ih => exact congrArg (native name args) (funext ih)
  | call job next ih => exact congrArg (call job) (funext ih)

/-- Applies a value to arguments, through the host functions that call each other. -/
def perform (f : Value) (args : List Value) : Routine Value :=
  match f with
  | .fn f => match f.enter args with
    | .ok (env, body) => call (.eval env body) done
    | .error e => fail e
  | .native f => match f.function with
    | some name => native name args fun reply => reply.follow fun g xs _ => perform g xs
    | none => fail (.internal ("native fn " ++ f.name ++ " has no callable"))
  | other => fail (.notInvokable other.display other.typeName)
termination_by f.callSize args
decreasing_by exact Nat.lt_succ_of_le ‹_›

theorem perform_native {f : Native} {name : String} (h : f.function = some name)
    (args : List Value) :
    perform (.native f) args =
      native name args fun reply => reply.follow fun g xs _ => perform g xs := by
  rw [perform, h]

theorem perform_uncallable {f : Native} (h : f.function = none) (args : List Value) :
    perform (.native f) args =
      fail (.internal ("native fn " ++ f.name ++ " has no callable")) := by
  rw [perform, h]

theorem perform_of_not_invokable {f : Value} (h : f.isInvokable = false) (args : List Value) :
    perform f args = fail (.notInvokable f.display f.typeName) := by
  rw [perform]
  · rintro f rfl
    cases h
  · rintro f rfl
    cases h

/-- The level at which deeper evaluations are calls. -/
def level (host : Host) (c : Context) : Level Routine :=
  ⟨host, c, fun env e => call (.eval env e) done⟩

/-- Evaluates the node at the top of an expression. Only calls reach host functions. -/
def node (host : Host) (env : Env) : Expr → Routine Value
  | .invoke name target args => do
    let f ← call (.eval env target) done
    if f.isInvokable then
      let args ← args.mapM fun e => call (.eval env e) done
      perform f args
    else
      fail (.notInvokable name f.typeName)
  | e => look fun c => (level host c).evalNode env e

end Routine

open Routine in
/-- What a worker does for a call that it has entered. -/
def Job.body (host : Host) : (job : Job) → Routine job.Answer
  | analyze a env form => look fun c =>
    a.analyzeForm ((level host c).expand a.maxExpansions)
      (fun env form => call (.analyze a env form) done) env form
  | eval env e => node host env e
  | evalForm i form => do
    let e ← call (.analyze i.analyzer i.env form) done
    call (.eval i.env e) done
  | analyzeForm i form => call (.analyze i.analyzer i.env form) done
  | apply _ f args => perform f args

/-! ## Moves -/

/-- The calls that wait for an answer of type `β`, up to the end of a worker whose result is an `α`.
Each comes with the limit that was in force before it. -/
inductive CallStack (α : Type) : Type → Type 1 where
  | bottom : CallStack α α
  | push {γ : Type} (job : Job) (previous : Nat) (next : job.Answer → Routine γ)
    (rest : CallStack α γ) : CallStack α job.Answer

/-- The calls that are open, the innermost first. -/
def CallStack.jobs {α : Type} : {β : Type} → CallStack α β → List Job
  | _, .bottom => []
  | _, .push job _ _ rest => job :: rest.jobs

structure Worker (α : Type) : Type 1 where
  {Answer : Type}
  cells : Context
  script : Routine Answer
  stack : CallStack α Answer

/-- A call that has come to its answer. -/
structure Returned where
  job : Job
  answer : job.Answer

namespace Worker

variable {α : Type}

/-- A worker before its first move. -/
def start (cells : Context) (x : Routine α) : Worker α := ⟨cells, x, .bottom⟩

/-- A task is evaluated from depth 0 under the limit it was given. -/
def ofTask (task : Task) : Worker Value :=
  start ⟨0, task.limit⟩ (.call (.eval task.env task.body) .done)

/-- How a worker ended, if it is over. -/
def outcome? : Worker α → Option (Except Error α)
  | ⟨_, .done a, .bottom⟩ => some (.ok a)
  | ⟨_, .fail e, .bottom⟩ => some (.error e)
  | _ => none

/-- One move, with the call that returns in it. -/
inductive Move (host : Host) : Store → Worker α → List Returned → Store → Worker α → Prop where
  | ask {β : Type} {s : Store} {c : Context} {r : Request} {next : r.Answer → Routine β}
      {stack : CallStack α β} :
    Move host s ⟨c, .ask r next, stack⟩ [] (s.answer r).2 ⟨c, next (s.answer r).1, stack⟩
  | look {β : Type} {s : Store} {c : Context} {next : Context → Routine β}
      {stack : CallStack α β} :
    Move host s ⟨c, .look next, stack⟩ [] s ⟨c, next c, stack⟩
  | native {β : Type} {s : Store} {c : Context} {name : String} {args : List Value}
      {next : Reply args → Routine β} {stack : CallStack α β} :
    Move host s ⟨c, .native name args next, stack⟩ [] s ⟨c, next (host name c args), stack⟩
  | enter {β : Type} {s : Store} {c c' : Context} {job : Job} {next : job.Answer → Routine β}
      {stack : CallStack α β} :
    job.acquire c = .ok () c' →
    Move host s ⟨c, .call job next, stack⟩ []
      s ⟨c', job.body host, .push job c.limit next stack⟩
  | refuse {β : Type} {s : Store} {c c' : Context} {job : Job} {next : job.Answer → Routine β}
      {stack : CallStack α β} {e : Error} :
    job.acquire c = .error e c' →
    Move host s ⟨c, .call job next, stack⟩ [] s ⟨c', .fail e, stack⟩
  | answer {γ : Type} {s : Store} {c : Context} {job : Job} {a : job.Answer} {previous : Nat}
      {next : job.Answer → Routine γ} {rest : CallStack α γ} :
    Move host s ⟨c, .done a, .push job previous next rest⟩ [⟨job, a⟩]
      s ⟨job.release previous c, next a, rest⟩
  /-- A failure ends one call after the other. -/
  | unwind {γ : Type} {s : Store} {c : Context} {job : Job} {e : Error} {previous : Nat}
      {next : job.Answer → Routine γ} {rest : CallStack α γ} :
    Move host s ⟨c, .fail e, .push job previous next rest⟩ []
      s ⟨job.release previous c, .fail e, rest⟩

/-- Moves with no one else in between. -/
inductive Moves (host : Host) : Store → Worker α → Store → Worker α → Prop where
  | refl (s : Store) (w : Worker α) : Moves host s w s w
  | head {s s' s'' : Store} {w w' w'' : Worker α} {ended : List Returned} :
    Move host s w ended s' w' → Moves host s' w' s'' w'' → Moves host s w s'' w''

theorem Moves.trans {host : Host} {s s' s'' : Store} {w w' w'' : Worker α}
    (h : Moves host s w s' w') (h' : Moves host s' w' s'' w'') : Moves host s w s'' w'' := by
  induction h with
  | refl => exact h'
  | head hmove _ ih => exact .head hmove (ih h')

/-- Moves with others in between, who may change the store as they like. -/
inductive Reaches (host : Host) (w : Worker α) : Store → Worker α → Prop where
  | refl (s : Store) : Reaches host w s w
  | tail {s s' : Store} {w' w'' : Worker α} {ended : List Returned} :
    Reaches host w s w' → Move host s w' ended s' w'' → Reaches host w s' w''
  | interfere {s : Store} {w' : Worker α} (s' : Store) :
    Reaches host w s w' → Reaches host w s' w'

theorem Reaches.moves {host : Host} {s s' : Store} {w w' w'' : Worker α}
    (h : w.Reaches host s w') (hmoves : w'.Moves host s s' w'') : w.Reaches host s' w'' := by
  induction hmoves with
  | refl => exact h
  | head hmove _ ih => exact ih (h.tail hmove)

end Worker

/-! ## What routines may do -/

/-- Which requests, host functions and calls a routine may make. -/
structure Discipline where
  request : Request → Prop
  native : Prop
  call : Job → Prop

/-- Whatever it is answered, the routine does only what it may do, and its answer satisfies `Q`. -/
def Routine.Obeys (D : Discipline) {α : Type} (Q : α → Prop) : Routine α → Prop
  | .done a => Q a
  | .fail _ => True
  | .ask r next => D.request r ∧ ∀ a, (next a).Obeys D Q
  | .look next => ∀ c, (next c).Obeys D Q
  | .native _ _ next => D.native ∧ ∀ reply, (next reply).Obeys D Q
  | .call job next => D.call job ∧ ∀ a, (next a).Obeys D Q

namespace Discipline

variable {D : Discipline} {α β : Type}

theorem bind_obeys {x : Routine α} {f : α → Routine β} {P : α → Prop} {Q : β → Prop}
    (hx : x.Obeys D P) (hf : ∀ a, P a → (f a).Obeys D Q) : (x >>= f).Obeys D Q := by
  induction x with
  | done a => exact hf a hx
  | fail e => trivial
  | ask r next ih => exact ⟨hx.1, fun a => ih a (hx.2 a)⟩
  | look next ih => exact fun c => ih c (hx c)
  | native name args next ih => exact ⟨hx.1, fun reply => ih reply (hx.2 reply)⟩
  | call job next ih => exact ⟨hx.1, fun a => ih a (hx.2 a)⟩

/-- What the evaluator does by itself is allowed: to look up, define and count, to call host
functions, and to analyze and evaluate one level deeper. Only tasks are left open. -/
structure Lenient (D : Discipline) : Prop where
  request (r : Request) (h : ∀ task, r ≠ .spawn task) : D.request r
  native : D.native
  call (job : Job) (h : job.limit? = none) : D.call job

/-- Routines that do only what they may do. -/
def Lenient.judgement (hD : D.Lenient) : Judgement Routine .all where
  holds x Q := x.Obeys D Q
  pure ha := ha
  bind := bind_obeys
  fail _ := trivial
  ask {r} _ _ hspawn := by
    refine ⟨hD.request r hspawn, fun a => ?_⟩
    cases r with
    | lookup root symbol => cases a <;> trivial
    | define root symbol v => cases a <;> trivial
    | _ => trivial

end Discipline

namespace Discipline.Lenient

variable {D : Discipline} (hD : D.Lenient)

include hD

theorem call_obeys (job : Job) (h : job.limit? = none) :
    (Routine.call job .done).Obeys D fun _ => True :=
  ⟨hD.call job h, fun _ => trivial⟩

theorem perform_obeys (f : Value) (args : List Value) :
    (Routine.perform f args).Obeys D fun _ => True := by
  induction f, args using Level.apply_induction with
  | fn f args =>
    rw [Routine.perform]
    cases f.enter args with
    | ok entered => exact hD.call_obeys (.eval entered.1 entered.2) rfl
    | error e => trivial
  | native f name args hname ih =>
    rw [Routine.perform_native hname]
    refine ⟨hD.native, fun reply => ?_⟩
    exact Reply.follow_keeps (G := hD.judgement) (fun g xs hbounded _ _ => ih g xs hbounded)
      reply.within_all
  | uncallable f args hname =>
    rw [Routine.perform_uncallable hname]
    trivial
  | other f args hf =>
    rw [Routine.perform_of_not_invokable hf]
    trivial

/-- A node that starts no task does only what is allowed. -/
theorem node_obeys (host : Host) (env : Env) (e : Expr)
    (hgo : ∀ body policy, e = .go body policy → ∀ task, D.request (.spawn task)) :
    (Routine.node host env e).Obeys D fun _ => True := by
  have heval (env : Env) (e : Expr) : (Routine.call (.eval env e) .done).Obeys D fun _ => True :=
    hD.call_obeys (.eval env e) rfl
  have hlevel (c : Context) : hD.judgement.holds ((Routine.level host c).evalNode env e)
      Realm.all.value := by
    refine Level.evalNode_keeps (fun env e _ _ => heval env e) (Realm.all_admits host) trivial
      trivial (fun symbol value _ v _ => ?_) fun body policy hnode => ?_
    · refine ⟨hD.request _ nofun, fun done => ?_⟩
      cases done <;> trivial
    · exact ⟨hgo body policy hnode _, fun _ => trivial⟩
  cases e with
  | invoke name target args =>
    refine bind_obeys (heval env target) fun f _ => ?_
    split
    · have hargs : hD.judgement.holds
          (args.mapM fun e => (Routine.call (.eval env e) .done : Routine Value))
          fun values => ∀ v ∈ values, True :=
        Judgement.mapM fun e _ => heval env e
      exact bind_obeys hargs fun args _ => hD.perform_obeys f args
    · trivial
  | _ => exact hlevel

/-- What is done for a call that is not such a node is allowed. -/
theorem body_obeys (host : Host) (job : Job)
    (hgo : ∀ env body policy, job = .eval env (.go body policy) → ∀ task, D.request (.spawn task)) :
    (job.body host).Obeys D fun _ => True := by
  cases job with
  | analyze a env form =>
    intro c
    have heval (env : Env) (e : Expr) (_ : Realm.all.env env) (_ : Realm.all.expr e) :
        hD.judgement.holds ((Routine.level host c).eval env e) Realm.all.value :=
      hD.call_obeys (.eval env e) rfl
    have hdeeper (env : Env) (form : Value) (_ : Realm.all.env env) (_ : Realm.all.value form) :
        hD.judgement.holds (.call (.analyze a env form) .done) Realm.all.expr :=
      hD.call_obeys (.analyze a env form) rfl
    have hexpand : hD.judgement.holds ((Routine.level host c).expand a.maxExpansions env form)
        Realm.all.value :=
      Level.expandLoop_keeps heval trivial a.maxExpansions form a.maxExpansions trivial
    exact Analyzer.analyzeForm_keeps (Realm.all_allows a) trivial hexpand hdeeper
  | eval env e =>
    refine hD.node_obeys host env e fun body policy hnode => hgo env body policy ?_
    rw [hnode]
  | evalForm i form =>
    refine bind_obeys (hD.call_obeys (.analyze i.analyzer i.env form) rfl) fun e _ => ?_
    exact hD.call_obeys (.eval i.env e) rfl
  | analyzeForm i form => exact hD.call_obeys (.analyze i.analyzer i.env form) rfl
  | apply i f args => exact hD.perform_obeys f args

end Discipline.Lenient

/-! ## Workers that are not interrupted -/

/-- How a routine goes on after a part of it that has ended. -/
def Routine.resume {α β : Type} (f : α → Routine β) : EStateM.Result Error Store α → Routine β
  | .ok a _ => f a
  | .error e _ => .fail e

/-- A routine agrees with a run when a worker with these cells, whatever it does afterwards and
whatever waits for it, comes to the end of the routine as the run does, with the same cells. -/
def working (host : Host) (c : Context) : Agreement Routine Run where
  rel {α} x y := ∀ (β γ : Type) (f : α → Routine β) (stack : CallStack γ β) (s : Store),
    Worker.Moves host s ⟨c, x >>= f, stack⟩ (y.final s) ⟨c, Routine.resume f (y s), stack⟩
  pure _ _ _ _ _ s := .refl s _
  fail _ _ _ _ _ s := .refl s _
  bind {_ _ x y f g} hx hf β γ k stack s := by
    have hmoves := hx β γ (fun a => f a >>= k) stack s
    rw [Routine.bind_assoc]
    cases h : y s with
    | ok a s' =>
      rw [h, Run.final_of_ok h] at hmoves
      have hbind := Run.bind_of_ok (f := g) h
      rw [hbind, Run.final_congr hbind]
      exact hmoves.trans (hf a β γ k stack s')
    | error e s' =>
      have hbind := Run.bind_of_error (f := g) h
      rw [h] at hmoves
      have hfinal : (y >>= g).final s = y.final s := by
        simp only [Run.final, hbind, h]
      rw [hbind, hfinal]
      exact hmoves

section

variable {host : Host} {c : Context}

theorem working_request (r : Request) : (working host c).rel (request r) (request r) :=
  fun _ _ _ _ _ => .head .ask (.refl _ _)

theorem working_look {α : Type} {next : Context → Routine α} {y : Run α}
    (h : (working host c).rel (next c) y) : (working host c).rel (.look next) y :=
  fun β γ f stack s => .head .look (h β γ f stack s)

theorem working_native {α : Type} {name : String} {args : List Value}
    {next : Reply args → Routine α} {y : Run α}
    (h : (working host c).rel (next (host name c args)) y) :
    (working host c).rel (.native name args next) y :=
  fun β γ f stack s => .head .native (h β γ f stack s)

/-- A call that can be entered ends as its body does. -/
theorem working_call {c' : Context} {job : Job} {y : Run job.Answer}
    (hacquire : job.acquire c = .ok () c')
    (hbody : (working host c').rel (job.body host) y) :
    (working host c).rel (.call job .done) y := by
  intro β γ f stack s
  have hmoves := hbody job.Answer γ .done (.push job c.limit f stack) s
  rw [Routine.bind_done] at hmoves
  refine .head (.enter hacquire) (hmoves.trans ?_)
  have hrelease := Job.release_of_acquire hacquire
  cases y s with
  | ok a s' =>
    refine .head .answer ?_
    rw [hrelease]
    exact .refl _ _
  | error e s' =>
    refine .head .unwind ?_
    rw [hrelease]
    exact .refl _ _

/-- Below the limit, a call that counts a level does its work one level deeper. -/
theorem working_deeper {job : Job} {y : Run job.Answer} (hjob : job.limit? = none)
    (hdepth : c.depth < c.limit)
    (hbody : (working host { c with depth := c.depth + 1 }).rel (job.body host) y) :
    (working host c).rel (.call job .done) y := by
  have hacquire : job.acquire c = .ok () { c with depth := c.depth + 1 } := by
    rw [Job.acquire_eq, hjob]
    exact if_pos hdepth
  exact working_call hacquire hbody

/-- At the limit, it is refused. -/
theorem working_refused {job : Job} (hjob : job.limit? = none) (hdepth : ¬ c.depth < c.limit) :
    (working host c).rel (.call job .done) (fail (.depthExceeded c.limit)) := by
  have hacquire : job.acquire c = .error (.depthExceeded c.limit) c := by
    rw [Job.acquire_eq, hjob]
    exact if_neg hdepth
  exact fun _ _ _ _ _ => .head (.refuse hacquire) (.refl _ _)

/-- Application goes through the same host functions one by one. -/
theorem working_perform {ev : Env → Expr → Run Value}
    (h : ∀ env e, (working host c).rel (.call (.eval env e) .done) (ev env e)) (f : Value)
    (args : List Value) :
    (working host c).rel (Routine.perform f args) (Level.apply ⟨host, c, ev⟩ f args) := by
  induction f, args using Level.apply_induction with
  | fn f args =>
    rw [Routine.perform, Level.apply_fn]
    dsimp only [Level.applyClosure]
    cases f.enter args with
    | ok entered => exact h entered.1 entered.2
    | error e => exact (working host c).fail e
  | native f name args hname ih =>
    rw [Routine.perform_native hname, Level.apply_native _ hname]
    exact working_native (Agreement.follow ih _)
  | uncallable f args hname =>
    rw [Routine.perform_uncallable hname, Level.apply_uncallable _ hname]
    exact (working host c).fail _
  | other f args hf =>
    rw [Routine.perform_of_not_invokable hf, Level.apply_of_not_invokable _ hf]
    exact (working host c).fail _

/-- One node ends as it does at a level, if calls end as evaluations one level deeper do. -/
theorem working_node {ev : Env → Expr → Run Value}
    (h : ∀ env e, (working host c).rel (.call (.eval env e) .done) (ev env e)) (env : Env)
    (e : Expr) : (working host c).rel (Routine.node host env e) (Level.evalNode ⟨host, c, ev⟩ env e) := by
  have hlevel : Level.Agree (working host c) (Routine.level host c) ⟨host, c, ev⟩ :=
    ⟨h, Level.apply_agree h fun _ _ => .inl rfl, fun _ _ _ => working_request _⟩
  have hother : (working host c).rel (.look fun c => (Routine.level host c).evalNode env e)
      (Level.evalNode ⟨host, c, ev⟩ env e) :=
    working_look (Level.evalNode_agree (fun r _ => working_request r) hlevel env e)
  cases e with
  | invoke name target args =>
    refine (working host c).bind (h env target) fun f => ?_
    split
    · refine (working host c).bind (Agreement.mapM fun e _ => h env e) fun args => ?_
      exact working_perform h f args
    · exact (working host c).fail _
  | _ => exact hother

end

/-- Evaluation: the levels that are left are those up to the limit. -/
theorem working_eval {host : Host} {left : Nat} {c : Context} (hleft : c.left = left) (env : Env)
    (e : Expr) :
    (working host c).rel (.call (.eval env e) .done) (eval host c.limit left env e) := by
  obtain ⟨depth, limit⟩ := c
  unfold Context.left at hleft
  dsimp only at hleft
  induction left generalizing depth env e with
  | zero => exact working_refused rfl (show ¬ depth < limit by omega)
  | succ left ih =>
    have hdepth : limit - left = depth + 1 := by omega
    rw [eval_succ, hdepth]
    refine working_deeper rfl (show depth < limit by omega) ?_
    exact working_node (fun env e => ih env e (depth + 1) (by omega)) env e

theorem working_apply {host : Host} {c : Context} (f : Value) (args : List Value) :
    (working host c).rel (Routine.perform f args) (apply host c f args) :=
  working_perform (working_eval rfl) f args

/-- Expansion evaluates the bodies of macros. -/
theorem working_expand {host : Host} {c : Context} (max : Nat) (env : Env) (form : Value) :
    (working host c).rel ((Routine.level host c).expand max env form)
      ((Level.ofContext host c).expand max env form) := by
  have honce (form : Value) : (working host c).rel ((Routine.level host c).expandOnce env form)
      ((Level.ofContext host c).expandOnce env form) :=
    Level.expandOnce_agree (fun r _ => working_request r) (working_eval rfl) env form
  exact Level.expandLoop_agree honce (Nat.le_refl max) (.inl ⟨rfl, rfl⟩) form

theorem working_analyze {host : Host} {left : Nat} {c : Context} (hleft : c.left = left)
    (a : Analyzer) (env : Env) (form : Value) :
    (working host c).rel (.call (.analyze a env form) .done)
      (a.analyze host c.limit left env form) := by
  obtain ⟨depth, limit⟩ := c
  unfold Context.left at hleft
  dsimp only at hleft
  induction left generalizing depth env form with
  | zero => exact working_refused rfl (show ¬ depth < limit by omega)
  | succ left ih =>
    have hdepth : limit - left = depth + 1 := by omega
    have hdeeper : limit - (depth + 1) = left := by omega
    have hexpand : (working host ⟨depth + 1, limit⟩).rel
        ((Routine.level host ⟨depth + 1, limit⟩).expand a.maxExpansions env form)
        (Level.expand ⟨host, ⟨depth + 1, limit⟩, eval host limit left⟩ a.maxExpansions env form) := by
      rw [← hdeeper]
      exact working_expand a.maxExpansions env form
    rw [Analyzer.analyze_succ, hdepth]
    refine working_deeper rfl (show depth < limit by omega) (working_look ?_)
    exact Analyzer.analyzeForm_agree rfl rfl (fun _ form _ => form.respects_eq) hexpand
      (.of_eq fun env form => ih env form (depth + 1) hdeeper) rfl

/-! ## The ways in -/

/-- The functions that a program can call: those of an interpreter, analysis, evaluation and
application. -/
inductive EntryPoint where
  | interpreterEval (i : Interpreter) (form : Value)
  | interpreterEvalAll (i : Interpreter) (forms : List Value)
  | interpreterAnalyze (i : Interpreter) (form : Value)
  | interpreterCall (i : Interpreter) (name : String) (args : List Value)
  | analyze (a : Analyzer) (env : Env) (form : Value)
  | eval (env : Env) (e : Expr)
  | apply (f : Value) (args : List Value)

namespace EntryPoint

abbrev Answer : EntryPoint → Type
  | interpreterAnalyze _ _ => Expr
  | analyze _ _ _ => Expr
  | _ => Value

/-- What the function does, at a depth and under a limit. -/
def run (host : Host) (c : Context) : (x : EntryPoint) → Run x.Answer
  | interpreterEval i form => i.eval host c.depth form
  | interpreterEvalAll i forms => i.evalAll host c.depth forms
  | interpreterAnalyze i form => i.analyze host c.depth form
  | interpreterCall i name args => i.call host c.depth name args
  | analyze a env form => a.analyze host c.limit c.left env form
  | eval env e => LispCore.eval host c.limit c.left env e
  | apply f args => LispCore.apply host c f args

open Routine in
/-- The same, written out. -/
def routine : (x : EntryPoint) → Routine x.Answer
  | interpreterEval i form => call (.evalForm i form) done
  | interpreterEvalAll i forms => forms.foldlM (fun _ form => call (.evalForm i form) done) .nil
  | interpreterAnalyze i form => call (.analyzeForm i form) done
  | interpreterCall i name args => do
    let f ← ofExcept (← i.env.lookupM (Symbol.parse name))
    call (.apply i f args) done
  | analyze a env form => call (.analyze a env form) done
  | eval env e => call (.eval env e) done
  | apply f args => perform f args

/-- The limit of the interpreter that the function belongs to. -/
def ownLimit? : EntryPoint → Option Nat
  | interpreterEval i _ => some i.maxDepth
  | interpreterEvalAll i _ => some i.maxDepth
  | interpreterAnalyze i _ => some i.maxDepth
  | interpreterCall i _ _ => some i.maxDepth
  | _ => none

/-- The limit that the function runs under: the interpreter's own, or the one in force. -/
def limit (c : Context) (x : EntryPoint) : Nat := x.ownLimit?.getD c.limit

/-- A function does what is allowed if it may look up names, analyze, evaluate, and put the limit of
its interpreter in force. Only application calls host functions before it makes a call. -/
theorem routine_obeys {D : Discipline} {x : EntryPoint}
    (hlookup : ∀ root symbol, D.request (.lookup root symbol))
    (hcall : ∀ job : Job, job.limit? = none ∨ job.limit? = x.ownLimit? → D.call job)
    (happly : ∀ f args, x = .apply f args → D.Lenient) : x.routine.Obeys D fun _ => True := by
  have hjob (job : Job) (h : job.limit? = none ∨ job.limit? = x.ownLimit?) :
      (Routine.call job .done).Obeys D fun _ => True := ⟨hcall job h, fun _ => trivial⟩
  cases x with
  | interpreterEval i form => exact hjob (.evalForm i form) (.inr rfl)
  | interpreterEvalAll i forms =>
    have hforms (v : Value) : (forms.foldlM (fun _ form => .call (.evalForm i form) .done) v :
        Routine Value).Obeys D fun _ => True := by
      clear happly hcall hlookup
      induction forms generalizing v with
      | nil => trivial
      | cons form forms ih =>
        exact Discipline.bind_obeys (hjob (.evalForm i form) (.inr rfl)) fun v _ => ih hjob v
    exact hforms .nil
  | interpreterAnalyze i form => exact hjob (.analyzeForm i form) (.inr rfl)
  | interpreterCall i name args =>
    have hname : (i.env.lookupM (Symbol.parse name) : Routine _).Obeys D fun _ => True := by
      unfold Env.lookupM
      split
      · trivial
      · exact ⟨hlookup _ _, fun _ => trivial⟩
    refine Discipline.bind_obeys hname fun found _ => ?_
    cases found with
    | ok f => exact hjob (.apply i f args) (.inr rfl)
    | error e => trivial
  | analyze a env form => exact hjob (.analyze a env form) (.inl rfl)
  | eval env e => exact hjob (.eval env e) (.inl rfl)
  | apply f args => exact (happly f args rfl).perform_obeys f args

theorem working_routine (host : Host) (c : Context) (x : EntryPoint) :
    (working host c).rel x.routine (x.run host c) := by
  have hform (i : Interpreter) (form : Value) :
      (working host c).rel (.call (.evalForm i form) .done) (i.eval host c.depth form) := by
    have hacquire : (Job.evalForm i form).acquire c = .ok () (i.context c.depth) := rfl
    refine working_call hacquire ?_
    exact (working host _).bind (working_analyze rfl i.analyzer i.env form) fun e =>
      working_eval rfl i.env e
  cases x with
  | interpreterEval i form => exact hform i form
  | interpreterEvalAll i forms => exact Agreement.foldlM (fun _ form _ => hform i form) _
  | interpreterAnalyze i form =>
    have hacquire : (Job.analyzeForm i form).acquire c = .ok () (i.context c.depth) := rfl
    exact working_call hacquire (working_analyze rfl i.analyzer i.env form)
  | interpreterCall i name args =>
    refine (working host c).bind (Agreement.lookupM (fun r _ => working_request r) _ _) fun found => ?_
    refine (working host c).bind (Agreement.ofExcept found) fun f => ?_
    have hacquire : (Job.apply i f args).acquire c = .ok () (i.context c.depth) := rfl
    exact working_call hacquire (working_apply f args)
  | analyze a env form => exact working_analyze rfl a env form
  | eval env e => exact working_eval rfl env e
  | apply f args => exact working_apply f args

/-- A worker that is not interrupted comes to the end that the function comes to, in the same store
and with the cells it had at the start. -/
theorem moves_run (host : Host) (c : Context) (x : EntryPoint) (s : Store) :
    ∃ w, (Worker.start c x.routine).Moves host s ((x.run host c).final s) w ∧
      w.outcome? = some ((x.run host c).answer s) ∧ w.cells = c := by
  have hmoves := x.working_routine host c x.Answer x.Answer .done .bottom s
  rw [Routine.bind_done] at hmoves
  refine ⟨_, hmoves, ?_, rfl⟩
  unfold Run.answer
  cases x.run host c s <;> rfl

end EntryPoint

end LispCore
