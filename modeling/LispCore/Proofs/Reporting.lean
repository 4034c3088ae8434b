import LispCore.Proofs.Interleaving
import LispCore.Proofs.Worker

/-!
# Every task reports once

An `Exchange` is a run and the tasks it has started, each a worker of its own, over one store. In a
step one worker makes one move, a task that waits begins, or a task that is over sends its outcome,
if it was told to report, and is gone. Tasks get numbers as they begin, so a message says which of
them sent it. The exchange keeps the calls that have returned and the messages that were sent, and
`Exchange.Passes` keeps the states that it has gone through.

A worker starts a task only while it evaluates a `go` node, once, and then has nothing but nil to
answer (`Worker.Tidy`). So at any point the messages sent on a channel and the tasks that are to
report on it and are not over are together those of the `go` nodes evaluated so far, and each message
is what its sender had come to in the state before it was sent (`Exchange.reports_once`).
-/

namespace LispCore

/-! ## The exchange -/

/-- A task that has begun, under its number. -/
structure Party : Type 1 where
  number : Nat
  task : Task
  worker : Worker Value

/-- The task before its first move. -/
def Party.ofTask (number : Nat) (task : Task) : Party := ⟨number, task, .ofTask task⟩

/-- An outcome on a channel, and the party that sent it. -/
structure Message where
  channel : Nat
  sender : Nat
  task : Task
  outcome : Outcome

namespace Task

/-- Whether the outcome of the task is sent on the channel. -/
def reportsOn (channel : Nat) (t : Task) : Bool := t.policy = .report channel

/-- What the task evaluates, and where. -/
def work (t : Task) : Env × Expr := (t.env, t.body)

/-- What is sent when the task is over. -/
def messages (t : Task) (number : Nat) (r : Outcome) : List Message :=
  match t.policy with
  | .report channel => [⟨channel, number, t, r⟩]
  | .detach => []

theorem mem_messages {t : Task} {number : Nat} {r : Outcome} {m : Message}
    (h : m ∈ t.messages number r) :
    t.policy = .report m.channel ∧ m.sender = number ∧ m.task = t ∧ m.outcome = r := by
  unfold messages at h
  split at h
  · next channel hpolicy =>
    cases List.mem_singleton.1 h
    exact ⟨hpolicy, rfl, rfl, rfl⟩
  · cases h

theorem senders_messages (t : Task) (number : Nat) (r : Outcome) :
    ((t.messages number r).map Message.sender).Sublist [number] := by
  unfold messages
  split
  · exact List.Sublist.refl _
  · exact List.nil_sublist _

theorem work_messages (channel : Nat) (t : Task) (number : Nat) (r : Outcome) :
    ((t.messages number r).filter (·.channel = channel)).map (fun m => m.task.work) =
      ([t].filter (reportsOn channel)).map work := by
  unfold messages
  cases hpolicy : t.policy with
  | detach => simp [reportsOn, hpolicy]
  | report k =>
    by_cases hk : k = channel
    · simp [reportsOn, hpolicy, hk]
    · simp [reportsOn, hpolicy, hk]

end Task

/-- A run, the tasks that have begun and are not over, how many have begun at all, the messages sent
and the calls that have returned so far, the latest first. -/
structure Exchange (α : Type) : Type 1 where
  store : Store
  main : Worker α
  parties : List Party := []
  begun : Nat := 0
  sent : List Message := []
  returned : List Returned := []

namespace Exchange

variable {α : Type}

inductive Step (host : Host) : Exchange α → Exchange α → Prop where
  | main {s s' : Store} {w w' : Worker α} {parties : List Party} {begun : Nat}
      {sent : List Message} {ended returned : List Returned} :
    w.Move host s ended s' w' →
    Step host ⟨s, w, parties, begun, sent, returned⟩
      ⟨s', w', parties, begun, sent, ended ++ returned⟩
  | party {s s' : Store} {main : Worker α} {number : Nat} {task : Task} {w w' : Worker Value}
      {before after : List Party} {begun : Nat} {sent : List Message}
      {ended returned : List Returned} :
    w.Move host s ended s' w' →
    Step host ⟨s, main, before ++ ⟨number, task, w⟩ :: after, begun, sent, returned⟩
      ⟨s', main, before ++ ⟨number, task, w'⟩ :: after, begun, sent, ended ++ returned⟩
  /-- Any task that waits may begin. It gets the next number. -/
  | launch {s : Store} {main : Worker α} {parties : List Party} {begun : Nat}
      {sent : List Message} {returned : List Returned} {before after : List Task} {task : Task} :
    s.tasks = before ++ task :: after →
    Step host ⟨s, main, parties, begun, sent, returned⟩
      ⟨{ s with tasks := before ++ after }, main, .ofTask begun task :: parties, begun + 1, sent,
        returned⟩
  /-- A task that is over reports, or not. -/
  | finish {s : Store} {main : Worker α} {number : Nat} {task : Task} {w : Worker Value}
      {r : Outcome} {before after : List Party} {begun : Nat} {sent : List Message}
      {returned : List Returned} :
    w.outcome? = some r →
    Step host ⟨s, main, before ++ ⟨number, task, w⟩ :: after, begun, sent, returned⟩
      ⟨s, main, before ++ after, begun, task.messages number r ++ sent, returned⟩

/-- The exchange goes from one state to another through the states of a list, which starts with the
last one before the end. -/
inductive Passes (host : Host) (x : Exchange α) : List (Exchange α) → Exchange α → Prop where
  | refl : Passes host x [] x
  | tail {past : List (Exchange α)} {y z : Exchange α} :
    Passes host x past y → Step host y z → Passes host x (y :: past) z

/-- The exchange may go from one state to the other. -/
def Reaches (host : Host) (x y : Exchange α) : Prop := ∃ past, x.Passes host past y

namespace Reaches

variable {host : Host} {x y z : Exchange α}

theorem refl (x : Exchange α) : Reaches host x x := ⟨[], .refl⟩

theorem tail (hxy : Reaches host x y) (hstep : Step host y z) : Reaches host x z := by
  obtain ⟨past, hpasses⟩ := hxy
  exact ⟨y :: past, hpasses.tail hstep⟩

theorem trans (hxy : Reaches host x y) (hyz : Reaches host y z) : Reaches host x z := by
  obtain ⟨past, hpasses⟩ := hyz
  induction hpasses with
  | refl => exact hxy
  | tail _ hstep ih => exact ih.tail hstep

end Reaches

/-- An exchange before its first step. -/
def start (c : Context) (x : EntryPoint) (s : Store) : Exchange x.Answer :=
  { store := s, main := .start c x.routine }

end Exchange

/-- The innermost call, if the routine is its answer. -/
def CallStack.returning {α : Type} : {β : Type} → CallStack α β → Routine β → List Returned
  | _, .push job _ _ _, .done a => [⟨job, a⟩]
  | _, _, _ => []

/-- The call whose answer the worker has come to and not yet passed on. -/
def Worker.arrived {α : Type} (w : Worker α) : List Returned := w.stack.returning w.script

/-- For a `go` node that reports on the channel, where and what its task evaluates. -/
def Returned.goReport? (channel : Nat) (r : Returned) : Option (Env × Expr) :=
  match r.job with
  | .eval env (.go body policy) =>
    if policy = .report channel then some (env.child Level.goFrame [], body) else none
  | _ => none

namespace Exchange

variable {α : Type} (y : Exchange α) (channel : Nat)

/-- The messages sent on the channel. -/
def sentOn : List Message := y.sent.filter (·.channel = channel)

/-- The tasks that are to report on the channel and are not over, whether they have begun or not. -/
def unfinished : List Task :=
  (y.store.tasks ++ y.parties.map Party.task).filter (Task.reportsOn channel)

/-- The calls that have come to an answer so far. -/
def evaluated : List Returned :=
  y.returned ++ (y.main.arrived ++ y.parties.flatMap fun p => p.worker.arrived)

/-- What the tasks of the `go` nodes so far that report on the channel evaluate. -/
def goReports : List (Env × Expr) := y.evaluated.filterMap (Returned.goReport? channel)

end Exchange

/-! ## What a worker does about tasks -/

/-- Tasks may not be started. -/
def Discipline.quiet : Discipline where
  request r := ∀ task, r ≠ .spawn task
  native := True
  call _ := True

theorem Discipline.quiet_lenient : quiet.Lenient where
  request _ h := h
  native := trivial
  call _ _ := trivial

/-- A routine that starts no task. -/
abbrev Routine.Quiet {α : Type} (x : Routine α) : Prop := x.Obeys .quiet fun _ => True

/-- The stages of the evaluation of a `go` node. -/
inductive GoStage (env : Env) (body : Expr) (policy : SpawnPolicy) : Routine Value → Prop where
  | look : GoStage env body policy (.look fun c =>
      .ask (.spawn ⟨env.child Level.goFrame [], body, c.limit, policy⟩) fun _ => .done .nil)
  | ask (limit : Nat) : GoStage env body policy
      (.ask (.spawn ⟨env.child Level.goFrame [], body, limit, policy⟩) fun _ => .done .nil)
  | done : GoStage env body policy (.done .nil)

/-- The evaluation of a `go` node. -/
def Job.isGo : Job → Bool
  | eval _ (.go _ _) => true
  | _ => false

theorem Returned.goReport?_of_not_go {r : Returned} (h : r.job.isGo = false) (channel : Nat) :
    r.goReport? channel = none := by
  obtain ⟨job, answer⟩ := r
  unfold goReport?
  split
  · next hjob =>
    dsimp only at hjob h
    rw [hjob] at h
    cases h
  · rfl

/-- None of the open calls is a `go` node, and what waits for their answers starts no task. -/
def CallStack.Quiet {α : Type} : {β : Type} → CallStack α β → Prop
  | _, .bottom => True
  | _, .push job _ next rest => job.isGo = false ∧ (∀ a, (next a).Quiet) ∧ rest.Quiet

namespace Worker

variable {α : Type}

/-- Only the innermost call can be a `go` node, which is then in one of its stages; otherwise no task
is started. -/
inductive Tidy : Worker α → Prop where
  | quiet {β : Type} {c : Context} {x : Routine β} {stack : CallStack α β} :
    x.Quiet → stack.Quiet → Tidy ⟨c, x, stack⟩
  | go {γ : Type} {c : Context} {env : Env} {body : Expr} {policy : SpawnPolicy}
      {x : Routine Value} {previous : Nat} {next : Value → Routine γ} {rest : CallStack α γ} :
    GoStage env body policy x → (∀ a, (next a).Quiet) → rest.Quiet →
    Tidy ⟨c, x, .push (.eval env (.go body policy)) previous next rest⟩

/-- What a worker comes to among quiet calls is no `go` node. -/
theorem goReports_arrived {β : Type} {stack : CallStack α β} (h : stack.Quiet) (c : Context)
    (x : Routine β) (channel : Nat) :
    (Worker.mk c x stack).arrived.filterMap (Returned.goReport? channel) = [] := by
  cases stack with
  | bottom => rfl
  | push job previous next rest =>
    cases x with
    | done a =>
      have hnone : Returned.goReport? channel ⟨job, a⟩ = none :=
        Returned.goReport?_of_not_go h.1 channel
      change [Returned.mk job a].filterMap (Returned.goReport? channel) = []
      rw [List.filterMap_cons_none hnone, List.filterMap_nil]
    | _ => rfl

/-- A call that has been entered is quiet, or it is at the first stage of a `go` node. -/
theorem tidy_body {γ : Type} (host : Host) (c : Context) (job : Job) {previous : Nat}
    {next : job.Answer → Routine γ} {rest : CallStack α γ} (hnext : ∀ a, (next a).Quiet)
    (hrest : rest.Quiet) :
    let entered : Worker α := ⟨c, job.body host, .push job previous next rest⟩
    entered.Tidy ∧ ∀ channel, entered.arrived.filterMap (Returned.goReport? channel) = [] := by
  intro entered
  by_cases hgo : ∃ env body policy, job = .eval env (.go body policy)
  · obtain ⟨env, body, policy, rfl⟩ := hgo
    exact ⟨.go .look hnext hrest, fun _ => rfl⟩
  · have hnot : job.isGo = false := by
      cases job with
      | eval env e =>
        cases e with
        | go body policy => exact absurd ⟨env, body, policy, rfl⟩ hgo
        | _ => rfl
      | _ => rfl
    have hstack : (CallStack.push job previous next rest).Quiet := ⟨hnot, hnext, hrest⟩
    refine ⟨.quiet (Discipline.quiet_lenient.body_obeys host job ?_) hstack,
      goReports_arrived hstack c _⟩
    intro env body policy hjob
    exact absurd ⟨env, body, policy, hjob⟩ hgo

end Worker

theorem Store.tasks_answer_of_not_spawn (s : Store) {r : Request} (h : ∀ task, r ≠ .spawn task) :
    (s.answer r).2.tasks = s.tasks := by
  cases r with
  | lookup root symbol => rfl
  | define root symbol v =>
    simp only [answer]
    split
    · rfl
    · rfl
  | freshId => rfl
  | spawn task => exact absurd rfl (h task)

/-- What returns in a move is what the worker had come to. -/
theorem Worker.Move.ended_subset {α : Type} {host : Host} {s s' : Store} {w w' : Worker α}
    {ended : List Returned} (hmove : w.Move host s ended s' w') : ended ⊆ w.arrived := by
  cases hmove with
  | answer => exact List.Subset.refl _
  | _ => exact List.nil_subset _

namespace Worker.Tidy

variable {α : Type} {host : Host} {s s' : Store} {w w' : Worker α} {ended : List Returned}

/-- What waits for the innermost call is quiet, whatever that call is. -/
theorem outer (h : w.Tidy) : match w.stack with
    | .bottom => True
    | .push _ _ next rest => (∀ a, (next a).Quiet) ∧ rest.Quiet := by
  cases h with
  | @quiet β c x stack hscript hstack =>
    cases stack with
    | bottom => trivial
    | push job previous next rest => exact hstack.2
  | go hstage hnext hrest => exact ⟨hnext, hrest⟩

/-- A `go` node comes to no other answer than nil. -/
theorem nil_of_arrived (h : w.Tidy) {env : Env} {body : Expr} {policy : SpawnPolicy} {v : Value}
    (hmem : ⟨.eval env (.go body policy), v⟩ ∈ w.arrived) : v = .nil := by
  cases h with
  | @quiet β c x stack hscript hstack =>
    cases stack with
    | bottom => cases hmem
    | push job previous next rest =>
      cases x with
      | done a =>
        have hjob : Job.eval env (.go body policy) = job :=
          congrArg Returned.job (List.mem_singleton.1 hmem)
        have hnot := hstack.1
        rw [← hjob] at hnot
        cases hnot
      | _ => cases hmem
  | go hstage hnext hrest =>
    cases hstage with
    | look => cases hmem
    | ask limit => cases hmem
    | done =>
      cases List.mem_singleton.1 hmem
      rfl

theorem same_goReports {β : Type} {stack : CallStack α β} (h : stack.Quiet) {c c' : Context}
    {x y : Routine β} (channel : Nat) :
    ([] ++ (Worker.mk c' y stack).arrived).filterMap (Returned.goReport? channel) =
      (([] : List Task).filter (Task.reportsOn channel)).map Task.work ++
        (Worker.mk c x stack).arrived.filterMap (Returned.goReport? channel) := by
  rw [List.nil_append, goReports_arrived h, goReports_arrived h]
  rfl

/-- One move keeps a worker tidy, and the tasks that it starts are those of the `go` nodes that come
to their answer in it. -/
theorem move (hmove : w.Move host s ended s' w') (h : w.Tidy) :
    w'.Tidy ∧ ∃ new, s'.tasks = new ++ s.tasks ∧ ∀ channel,
      (ended ++ w'.arrived).filterMap (Returned.goReport? channel) =
        (new.filter (Task.reportsOn channel)).map Task.work ++
          w.arrived.filterMap (Returned.goReport? channel) := by
  cases hmove with
  | ask =>
    cases h with
    | quiet hscript hstack =>
      obtain ⟨hr, hnext⟩ := hscript
      exact ⟨.quiet (hnext _) hstack, [], s.tasks_answer_of_not_spawn hr, same_goReports hstack⟩
    | @go _ _ _ _ policy _ _ _ _ hstage hnext hrest =>
      cases hstage with
      | ask limit =>
        refine ⟨.go .done hnext hrest, [_], rfl, fun channel => ?_⟩
        by_cases hpolicy : policy = .report channel
        · simp [arrived, CallStack.returning, Returned.goReport?, Task.reportsOn, Task.work, hpolicy]
        · simp [arrived, CallStack.returning, Returned.goReport?, Task.reportsOn, hpolicy]
  | look =>
    cases h with
    | quiet hscript hstack =>
      exact ⟨.quiet (hscript _) hstack, [], rfl, same_goReports hstack⟩
    | go hstage hnext hrest =>
      cases hstage with
      | look => exact ⟨.go (.ask _) hnext hrest, [], rfl, fun _ => rfl⟩
  | native =>
    cases h with
    | quiet hscript hstack =>
      exact ⟨.quiet (hscript.2 _) hstack, [], rfl, same_goReports hstack⟩
    | go hstage hnext hrest => cases hstage
  | enter hacquire =>
    cases h with
    | quiet hscript hstack =>
      obtain ⟨htidy, hnone⟩ := tidy_body host _ _ hscript.2 hstack
      refine ⟨htidy, [], rfl, fun channel => ?_⟩
      rw [goReports_arrived hstack]
      exact hnone channel
    | go hstage hnext hrest => cases hstage
  | refuse hacquire =>
    cases h with
    | quiet hscript hstack => exact ⟨.quiet trivial hstack, [], rfl, same_goReports hstack⟩
    | go hstage hnext hrest => cases hstage
  | answer =>
    obtain ⟨hnext, hrest⟩ := h.outer
    refine ⟨.quiet (hnext _) hrest, [], rfl, fun channel => ?_⟩
    rw [List.filterMap_append, goReports_arrived hrest, List.append_nil]
    rfl
  | unwind =>
    obtain ⟨hnext, hrest⟩ := h.outer
    exact ⟨.quiet trivial hrest, [], rfl, goReports_arrived hrest _ _⟩

end Worker.Tidy

theorem Worker.arrived_of_outcome {α : Type} {w : Worker α} {r : Except Error α}
    (h : w.outcome? = some r) : w.arrived = [] := by
  unfold outcome? at h
  split at h
  · rfl
  · rfl
  · cases h

/-! ## Messages and tasks -/

namespace Exchange

variable {α : Type} {host : Host} {y z : Exchange α}

/-- Every worker is tidy, and on every channel the messages and the tasks that are not over are those
of the `go` nodes evaluated so far. -/
structure Accounted (y : Exchange α) : Prop where
  main : y.main.Tidy
  tidy : ∀ p ∈ y.parties, p.worker.Tidy
  answers : ∀ env body policy v, ⟨.eval env (.go body policy), v⟩ ∈ y.returned → v = .nil
  reports : ∀ channel, ((y.sentOn channel).map (fun m => m.task.work) ++
    (y.unfinished channel).map Task.work).Perm (y.goReports channel)

theorem accounted_start (c : Context) (x : EntryPoint) {s : Store} (hs : s.tasks = []) :
    (start c x s).Accounted where
  main := by
    refine .quiet (EntryPoint.routine_obeys nofun (fun _ _ => trivial) fun _ _ _ => ?_) trivial
    exact Discipline.quiet_lenient
  tidy := nofun
  answers := nofun
  reports channel := by
    have hwaiting : (start c x s).unfinished channel = [] := by
      change (s.tasks ++ []).filter (Task.reportsOn channel) = []
      rw [hs]
      rfl
    rw [hwaiting]
    exact .refl _

theorem Accounted.step (hstep : Step host y z) (h : y.Accounted) : z.Accounted := by
  classical
  cases hstep with
  | @main s s' w w' parties begun sent ended returned hmove =>
    obtain ⟨htidy, new, htasks, hreports⟩ := h.main.move hmove
    refine ⟨htidy, h.tidy, fun env body policy v hmem => ?_, fun channel => ?_⟩
    · rcases List.mem_append.1 hmem with hmem | hmem
      · exact h.main.nil_of_arrived (hmove.ended_subset hmem)
      · exact h.answers env body policy v hmem
    · refine List.perm_iff_count.2 fun k => ?_
      have hcount := List.perm_iff_count.1 (h.reports channel) k
      have hnew := congrArg (List.count k) (hreports channel)
      simp only [sentOn, unfinished, goReports, evaluated, htasks, List.filterMap_append,
        List.filter_append, List.map_append, List.count_append] at hcount hnew ⊢
      omega
  | @party s s' main number task w w' before after begun sent ended returned hmove =>
    obtain ⟨htidyBefore, htidyRest⟩ := List.forall_mem_append.1 h.tidy
    obtain ⟨hw, htidyAfter⟩ := List.forall_mem_cons.1 htidyRest
    obtain ⟨htidy, new, htasks, hreports⟩ := hw.move hmove
    refine ⟨h.main, ?_, fun env body policy v hmem => ?_, fun channel => ?_⟩
    · exact List.forall_mem_append.2 ⟨htidyBefore, List.forall_mem_cons.2 ⟨htidy, htidyAfter⟩⟩
    · rcases List.mem_append.1 hmem with hmem | hmem
      · exact hw.nil_of_arrived (hmove.ended_subset hmem)
      · exact h.answers env body policy v hmem
    · refine List.perm_iff_count.2 fun k => ?_
      have hcount := List.perm_iff_count.1 (h.reports channel) k
      have hnew := congrArg (List.count k) (hreports channel)
      simp only [sentOn, unfinished, goReports, evaluated, htasks, List.filterMap_append,
        List.filter_append, List.map_append, List.map_cons, List.flatMap_append, List.flatMap_cons,
        List.count_append] at hcount hnew ⊢
      omega
  | @launch s main parties begun sent returned before after task htasks =>
    refine ⟨h.main, ?_, h.answers, fun channel => ?_⟩
    · exact List.forall_mem_cons.2 ⟨.quiet ⟨trivial, fun _ => trivial⟩ trivial, h.tidy⟩
    · have hmoved : ((before ++ task :: after) ++ parties.map Party.task).Perm
          ((before ++ after) ++ task :: parties.map Party.task) :=
        (List.perm_middle.append_right _).trans List.perm_middle.symm
      have hreports := h.reports channel
      unfold unfinished at hreports
      dsimp only at hreports
      rw [htasks] at hreports
      exact ((hmoved.filter _).map _).symm.append_left _ |>.trans hreports
  | @finish s main number task w r before after begun sent returned hover =>
    obtain ⟨htidyBefore, htidyRest⟩ := List.forall_mem_append.1 h.tidy
    obtain ⟨-, htidyAfter⟩ := List.forall_mem_cons.1 htidyRest
    refine ⟨h.main, List.forall_mem_append.2 ⟨htidyBefore, htidyAfter⟩, h.answers,
      fun channel => ?_⟩
    refine List.perm_iff_count.2 fun k => ?_
    have hcount := List.perm_iff_count.1 (h.reports channel) k
    have harrived := Worker.arrived_of_outcome hover
    have htasks : (before ++ ⟨number, task, w⟩ :: after).map Party.task =
        before.map Party.task ++ ([task] ++ after.map Party.task) := by
      rw [List.map_append]
      rfl
    simp only [sentOn, unfinished, goReports, evaluated, task.work_messages channel, htasks,
      harrived, List.map_append, List.filter_append, List.flatMap_append, List.flatMap_cons,
      List.nil_append, List.filterMap_append, List.count_append] at hcount ⊢
    omega

theorem Accounted.passes {past : List (Exchange α)} (hpasses : y.Passes host past z)
    (h : y.Accounted) : z.Accounted := by
  induction hpasses with
  | refl => exact h
  | tail _ hstep ih => exact ih.step hstep

/-- Nil is all that the `go` nodes evaluated so far have come to. -/
theorem Accounted.nil_of_evaluated (h : y.Accounted) {env : Env} {body : Expr}
    {policy : SpawnPolicy} {v : Value}
    (hmem : ⟨.eval env (.go body policy), v⟩ ∈ y.evaluated) : v = .nil := by
  rcases List.mem_append.1 hmem with hmem | hmem
  · exact h.answers env body policy v hmem
  · rcases List.mem_append.1 hmem with hmem | hmem
    · exact h.main.nil_of_arrived hmem
    · obtain ⟨p, hp, hmem⟩ := List.mem_flatMap.1 hmem
      exact (h.tidy p hp).nil_of_arrived hmem

/-! ## Messages and senders -/

/-- In a state of the past the sender of the message had come to its outcome by moves of its own,
and in a state before that it had begun with the task. -/
def Attests (host : Host) (past : List (Exchange α)) (m : Message) : Prop :=
  m.task.policy = .report m.channel ∧
  ∃ begun ended w, [ended, begun].Sublist past ∧
    .ofTask m.sender m.task ∈ begun.parties ∧ ⟨m.sender, m.task, w⟩ ∈ ended.parties ∧
    (Worker.ofTask m.task).Reaches host ended.store w ∧ w.outcome? = some m.outcome

theorem Attests.later {past : List (Exchange α)} {m : Message} (h : Attests host past m)
    (y : Exchange α) : Attests host (y :: past) m := by
  obtain ⟨hpolicy, begun, ended, w, hpast, hparties⟩ := h
  exact ⟨hpolicy, begun, ended, w, hpast.cons y, hparties⟩

/-- The worker of the party got by its own moves to where it is, and the party is new or began in a
state of the past. -/
def Began (host : Host) (past : List (Exchange α)) (y : Exchange α) (p : Party) : Prop :=
  (Worker.ofTask p.task).Reaches host y.store p.worker ∧
  (p = .ofTask p.number p.task ∨ ∃ x ∈ past, .ofTask p.number p.task ∈ x.parties)

namespace Began

variable {past : List (Exchange α)} {p : Party}

/-- Once there is another state, the party is new no more. -/
theorem exists_past (h : Began host past y p) (hp : p ∈ y.parties) :
    ∃ x ∈ y :: past, .ofTask p.number p.task ∈ x.parties := by
  rcases h.2 with hnew | ⟨x, hx, hbegan⟩
  · exact ⟨y, List.mem_cons_self, hnew ▸ hp⟩
  · exact ⟨x, List.mem_cons_of_mem y hx, hbegan⟩

theorem later (h : Began host past y p) (hp : p ∈ y.parties) (z : Exchange α) :
    Began host (y :: past) z p :=
  ⟨h.1.interfere z.store, .inr (h.exists_past hp)⟩

theorem move (h : Began host past y p) (hp : p ∈ y.parties) {w : Worker Value}
    {ended : List Returned} (hmove : p.worker.Move host y.store ended z.store w) :
    Began host (y :: past) z { p with worker := w } :=
  ⟨h.1.tail hmove, .inr (h.exists_past hp)⟩

/-- A party that is over has begun in the past. -/
theorem attests (h : Began host past y p) (hp : p ∈ y.parties) {r : Outcome}
    (hover : p.worker.outcome? = some r) {m : Message} (hm : m ∈ p.task.messages p.number r) :
    Attests host (y :: past) m := by
  obtain ⟨hpolicy, hsender, htask, houtcome⟩ := Task.mem_messages hm
  obtain ⟨hreach, hnew | ⟨x, hx, hbegan⟩⟩ := h
  · rw [hnew] at hover
    cases hover
  · rw [← hsender, ← htask] at hbegan
    have hpast : [y, x].Sublist (y :: past) := (List.singleton_sublist.2 hx).cons_cons y
    refine ⟨htask ▸ hpolicy, x, y, p.worker, hpast, hbegan, ?_, ?_, ?_⟩
    · rw [hsender, htask]
      exact hp
    · rw [htask]
      exact hreach
    · rw [houtcome]
      exact hover

end Began

/-- Every party has begun, and every message is attested. -/
structure Attributed (host : Host) (past : List (Exchange α)) (y : Exchange α) : Prop where
  began : ∀ p ∈ y.parties, Began host past y p
  messages : ∀ m ∈ y.sent, Attests host past m

theorem attributed_start (host : Host) (c : Context) (x : EntryPoint) (s : Store) :
    Attributed host [] (start c x s) := ⟨nofun, nofun⟩

theorem Attributed.step {past : List (Exchange α)} (hstep : Step host y z)
    (h : Attributed host past y) : Attributed host (y :: past) z := by
  have hsent (m : Message) (hm : m ∈ y.sent) : Attests host (y :: past) m :=
    (h.messages m hm).later y
  have hlater (p : Party) (hp : p ∈ y.parties) : Began host (y :: past) z p :=
    (h.began p hp).later hp z
  cases hstep with
  | main hmove => exact ⟨hlater, hsent⟩
  | @party s s' main number task w w' before after begun sent ended returned hmove =>
    have hp : ⟨number, task, w⟩ ∈ before ++ ⟨number, task, w⟩ :: after := by simp
    refine ⟨fun p hmem => ?_, hsent⟩
    rcases List.mem_append.1 hmem with hmem | hmem
    · exact hlater p (List.mem_append_left _ hmem)
    rcases List.mem_cons.1 hmem with rfl | hmem
    · exact (h.began _ hp).move hp hmove
    · exact hlater p (List.mem_append_right _ (List.mem_cons_of_mem _ hmem))
  | launch htasks => exact ⟨List.forall_mem_cons.2 ⟨⟨.refl _, .inl rfl⟩, hlater⟩, hsent⟩
  | @finish s main number task w r before after begun sent returned hover =>
    have hp : ⟨number, task, w⟩ ∈ before ++ ⟨number, task, w⟩ :: after := by simp
    refine ⟨fun p hmem => ?_, fun m hm => ?_⟩
    · rcases List.mem_append.1 hmem with hmem | hmem
      · exact hlater p (List.mem_append_left _ hmem)
      · exact hlater p (List.mem_append_right _ (List.mem_cons_of_mem _ hmem))
    · rcases List.mem_append.1 hm with hm | hm
      · exact (h.began _ hp).attests hp hover hm
      · exact hsent m hm

theorem Attributed.passes {past : List (Exchange α)} (hpasses : y.Passes host past z)
    (h : Attributed host [] y) : Attributed host past z := by
  induction hpasses with
  | refl => exact h
  | tail _ hstep ih => exact ih.step hstep

/-- The numbers of the senders of messages and of the parties that are not over. -/
def numbers (y : Exchange α) : List Nat := y.sent.map Message.sender ++ y.parties.map Party.number

/-- All of them differ, and the next one is new. -/
structure Numbered (y : Exchange α) : Prop where
  nodup : y.numbers.Nodup
  below : ∀ n ∈ y.numbers, n < y.begun

theorem Numbered.of_sublist (h : y.Numbered) (hbegun : z.begun = y.begun) (ns : List Nat)
    (hy : y.numbers.Perm ns) (hz : z.numbers.Sublist ns) : z.Numbered where
  nodup := (hy.nodup_iff.1 h.nodup).sublist hz
  below n hn := by
    rw [hbegun]
    exact h.below n (hy.mem_iff.2 (hz.mem hn))

theorem Numbered.step (hstep : Step host y z) (h : y.Numbered) : z.Numbered := by
  cases hstep with
  | main hmove => exact h.of_sublist rfl _ (.refl _) (.refl _)
  | party hmove =>
    refine h.of_sublist rfl _ (.refl _) ?_
    simp only [numbers, List.map_append, List.map_cons]
    exact .refl _
  | @launch s main parties begun sent returned before after task htasks =>
    have hnew : begun ∉ numbers (α := α) ⟨s, main, parties, begun, sent, returned⟩ :=
      fun hmem => Nat.lt_irrefl begun (h.below begun hmem)
    have hnumbers : (numbers (α := α) ⟨{ s with tasks := before ++ after }, main,
        .ofTask begun task :: parties, begun + 1, sent, returned⟩).Perm
        (begun :: numbers (α := α) ⟨s, main, parties, begun, sent, returned⟩) := List.perm_middle
    refine ⟨hnumbers.nodup_iff.2 (List.nodup_cons.2 ⟨hnew, h.nodup⟩), fun n hn => ?_⟩
    rcases List.mem_cons.1 (hnumbers.mem_iff.1 hn) with rfl | hn
    · exact Nat.lt_succ_self n
    · exact Nat.lt_succ_of_lt (h.below n hn)
  | @finish s main number task w r before after begun sent returned hover =>
    -- the number of the party becomes that of its message, or is used no more
    let rest := sent.map Message.sender ++ (before ++ after).map Party.number
    refine h.of_sublist rfl (number :: rest) ?_ ?_
    · simp only [rest, numbers, List.map_append, List.map_cons]
      exact (List.perm_middle.append_left _).trans List.perm_middle
    · simp only [rest, numbers, List.map_append, List.append_assoc]
      exact (task.senders_messages number r).append_right _

theorem Numbered.passes {past : List (Exchange α)} (hpasses : y.Passes host past z)
    (h : y.Numbered) : z.Numbered := by
  induction hpasses with
  | refl => exact h
  | tail _ hstep ih => exact ih.step hstep

/-! ## Tasks one by one -/

theorem Reaches.moves_main {s s' : Store} {w w' : Worker α} (h : w.Moves host s s' w')
    (parties : List Party) (begun : Nat) (sent : List Message) (returned : List Returned) :
    ∃ returned', Reaches host ⟨s, w, parties, begun, sent, returned⟩
      ⟨s', w', parties, begun, sent, returned'⟩ := by
  induction h generalizing returned with
  | refl => exact ⟨returned, .refl _⟩
  | head hmove _ ih =>
    obtain ⟨returned', hreach⟩ := ih _
    exact ⟨returned', ((Reaches.refl _).tail (.main hmove)).trans hreach⟩

theorem Reaches.moves_party {s s' : Store} {w w' : Worker Value} (h : w.Moves host s s' w')
    (main : Worker α) (number : Nat) (task : Task) (after : List Party) (begun : Nat)
    (sent : List Message) (returned : List Returned) :
    ∃ returned', Reaches host ⟨s, main, ⟨number, task, w⟩ :: after, begun, sent, returned⟩
      ⟨s', main, ⟨number, task, w'⟩ :: after, begun, sent, returned'⟩ := by
  induction h generalizing returned with
  | refl => exact ⟨returned, .refl _⟩
  | @head _ _ _ w _ _ _ hmove _ ih =>
    obtain ⟨returned', hreach⟩ := ih _
    have hstep : Step host ⟨_, main, [] ++ ⟨number, task, w⟩ :: after, begun, sent, returned⟩ _ :=
      .party hmove
    exact ⟨returned', ((Reaches.refl _).tail hstep).trans hreach⟩

/-- The parties are at the start of these tasks, under whatever numbers. -/
def AtStart (parties : List Party) (order : List Task) : Prop :=
  parties.map (fun p => (p.task, p.worker)) = order.map fun task => (task, Worker.ofTask task)

theorem AtStart.cons {parties : List Party} {task : Task} {order : List Task}
    (h : AtStart parties (task :: order)) :
    ∃ number after, parties = .ofTask number task :: after ∧ AtStart after order := by
  obtain ⟨⟨number, task', w⟩, after, rfl, hp, hafter⟩ := List.map_eq_cons_iff.1 h
  obtain ⟨rfl, rfl⟩ : task' = task ∧ w = Worker.ofTask task := Prod.mk.inj hp
  exact ⟨number, after, rfl, hafter⟩

/-- All waiting tasks may begin. -/
theorem reaches_launch (host : Host) {waiting : List Task} {s : Store} (hs : s.tasks = waiting)
    (main : Worker α) (parties : List Party) (begun : Nat) (sent : List Message)
    (returned : List Returned) :
    ∃ new begun', AtStart new waiting.reverse ∧
      Reaches host ⟨s, main, parties, begun, sent, returned⟩
        ⟨{ s with tasks := [] }, main, new ++ parties, begun', sent, returned⟩ := by
  induction waiting generalizing s parties begun with
  | nil =>
    have hstore : { s with tasks := [] } = s := by rw [← hs]
    rw [hstore]
    exact ⟨[], begun, rfl, .refl _⟩
  | cons task waiting ih =>
    have hlaunch : Step host ⟨s, main, parties, begun, sent, returned⟩
        ⟨{ s with tasks := waiting }, main, .ofTask begun task :: parties, begun + 1, sent,
          returned⟩ := .launch (show s.tasks = [] ++ task :: waiting from hs)
    obtain ⟨new, begun', hnew, hrest⟩ :=
      ih (s := { s with tasks := waiting }) rfl (.ofTask begun task :: parties) (begun + 1)
    refine ⟨new ++ [.ofTask begun task], begun', ?_, ?_⟩
    · rw [AtStart, List.reverse_cons, List.map_append, List.map_append, hnew]
      rfl
    · rw [List.append_assoc]
      exact ((Reaches.refl _).tail hlaunch).trans hrest

/-- A task that has begun may run to its end and report. -/
theorem reaches_finish (host : Host) (number : Nat) (task : Task) (s : Store) (main : Worker α)
    (after : List Party) (begun : Nat) (sent : List Message) (returned : List Returned) :
    let run : Run Value := eval host task.limit task.limit task.env task.body
    ∃ returned', Reaches host ⟨s, main, .ofTask number task :: after, begun, sent, returned⟩
      ⟨run.final s, main, after, begun, task.messages number (run.answer s) ++ sent, returned'⟩ := by
  intro run
  obtain ⟨w, hmoves, hover, -⟩ :=
    EntryPoint.moves_run host ⟨0, task.limit⟩ (.eval task.env task.body) s
  obtain ⟨returned', hreach⟩ :=
    Reaches.moves_party hmoves main number task after begun sent returned
  have hfinish : Step host
      ⟨run.final s, main, [] ++ ⟨number, task, w⟩ :: after, begun, sent, returned'⟩ _ :=
    .finish hover
  exact ⟨returned', hreach.tail hfinish⟩

/-- What arrives on the channels, the oldest first. -/
def delivered (y : Exchange α) : List (Nat × Outcome) :=
  y.sent.reverse.map fun m => (m.channel, m.outcome)

/-- The session has the same store, and in its inbox what was sent. -/
structure Follows (y : Exchange α) (session : Session) : Prop where
  store : y.store = session.handles.store
  inbox : y.delivered = session.inbox

theorem inbox_deliver (session : Session) (task : Task) (number : Nat) (r : Outcome) :
    (session.deliver task.policy r).inbox =
      session.inbox ++ (task.messages number r).reverse.map fun m => (m.channel, m.outcome) := by
  unfold Task.messages
  cases task.policy with
  | detach => exact (List.append_nil _).symm
  | report channel => rfl

theorem Follows.runTask {session : Session} {number : Nat} {task : Task} {after : List Party}
    (h : y.Follows session) (hparties : y.parties = .ofTask number task :: after) :
    ∃ z, Reaches standardHost y z ∧ z.Follows (session.runTask task) ∧
      z.main = y.main ∧ z.parties = after := by
  obtain ⟨s, main, parties, begun, sent, returned⟩ := y
  obtain ⟨hstore, hinbox⟩ := h
  dsimp only at hstore hparties
  subst hstore hparties
  obtain ⟨returned', hreach⟩ :=
    reaches_finish standardHost number task session.handles.store main after begun sent returned
  refine ⟨_, hreach, ?_, rfl, rfl⟩
  rw [Session.runTask_eq]
  constructor
  · rw [Session.handles_deliver]
    rfl
  · rw [inbox_deliver _ task number, delivered, List.reverse_append, List.map_append]
    exact congrArg (· ++ _) hinbox

/-- Tasks that have begun may run one after the other, as in a session. -/
theorem Follows.foldl {session : Session} {order : List Task} (h : y.Follows session)
    (hparties : AtStart y.parties order) :
    ∃ z, Reaches standardHost y z ∧ z.Follows (order.foldl Session.runTask session) ∧
      z.main = y.main ∧ z.parties = [] := by
  induction order generalizing y session with
  | nil => exact ⟨y, .refl y, h, rfl, List.map_eq_nil_iff.1 hparties⟩
  | cons task order ih =>
    obtain ⟨number, after, hfirst, hafter⟩ := hparties.cons
    obtain ⟨x, hyx, hx, hmain, hparties⟩ := h.runTask hfirst
    obtain ⟨z, hxz, hz, hmain', hnone⟩ := ih hx (hparties ▸ hafter)
    exact ⟨z, hyx.trans hxz, hz, hmain'.trans hmain, hnone⟩

/-- The rounds of a session are one of the orders in which tasks may run. -/
theorem Follows.runTasks {session : Session} (rounds : Nat) (h : y.Follows session)
    (hparties : y.parties = []) :
    ∃ z, Reaches standardHost y z ∧ z.Follows (session.runTasks rounds) ∧
      z.main = y.main ∧ z.parties = [] := by
  induction rounds generalizing y session with
  | zero => exact ⟨y, .refl y, h, rfl, hparties⟩
  | succ rounds ih =>
    rw [Session.runTasks]
    cases hwaiting : session.handles.store.tasks with
    | nil => exact ⟨y, .refl y, h, rfl, hparties⟩
    | cons task rest =>
      obtain ⟨new, begun, hnew, hlaunch⟩ := reaches_launch standardHost
        ((congrArg Store.tasks h.store).trans hwaiting) y.main y.parties y.begun y.sent y.returned
      have hbegun : Follows (α := α)
          ⟨{ y.store with tasks := [] }, y.main, new ++ y.parties, begun, y.sent, y.returned⟩
          (session.setStore { session.handles.store with tasks := [] }) :=
        ⟨congrArg (fun s : Store => { s with tasks := [] }) h.store, h.inbox⟩
      have horder : AtStart (new ++ y.parties) (task :: rest).reverse := by
        rw [hparties, List.append_nil]
        exact hnew
      obtain ⟨x, hyx, hx, hmain, hnone⟩ := hbegun.foldl horder
      obtain ⟨z, hxz, hz, hmain', hnone'⟩ := ih hx hnone
      exact ⟨z, (hlaunch.trans hyx).trans hxz, hz, hmain'.trans hmain, hnone'⟩

/-- A run by itself, then the tasks as a session runs them. -/
theorem reaches_runTasks (c : Context) (x : EntryPoint) (s : Store) {session : Session}
    (hstore : session.handles.store = (x.run standardHost c).final s)
    (hinbox : session.inbox = []) (rounds : Nat) :
    ∃ y, Reaches standardHost (start c x s) y ∧ y.Follows (session.runTasks rounds) ∧
      y.main.outcome? = some ((x.run standardHost c).answer s) ∧ y.parties = [] := by
  obtain ⟨w, hmoves, hover, -⟩ := x.moves_run standardHost c s
  obtain ⟨returned, hrun⟩ := Reaches.moves_main hmoves [] 0 [] []
  have hfollows : Follows ⟨(x.run standardHost c).final s, w, [], 0, [], returned⟩ session :=
    ⟨hstore.symm, hinbox.symm⟩
  obtain ⟨y, htasks, hy, hmain, hnone⟩ := hfollows.runTasks rounds rfl
  exact ⟨y, hrun.trans htasks, hy, (congrArg Worker.outcome? hmain).trans hover, hnone⟩

/-! ## The result -/

/-- Wherever the run and its tasks have got to, and through whatever states, the messages sent on a
channel and the tasks that are to report on it and are not over are as many as the `go` nodes
evaluated so far that report on it, and are theirs one by one. No task has sent two messages, or one
before it was over: each message is what its sender, which began with its task in a state of the
past, had come to in a later one. A `go` node comes to nil. Running the tasks as a session does is
one way to go on. -/
theorem reports_once (c : Context) (x : EntryPoint) {s : Store} (hs : s.tasks = []) :
    (∀ (host : Host) (past : List (Exchange x.Answer)) (y : Exchange x.Answer),
      (start c x s).Passes host past y →
      (∀ channel,
        (y.sentOn channel).length + (y.unfinished channel).length =
          (y.goReports channel).length ∧
        ((y.sentOn channel).map (fun m => m.task.work) ++
          (y.unfinished channel).map Task.work).Perm (y.goReports channel)) ∧
      y.numbers.Nodup ∧
      (∀ m ∈ y.sent, Attests host past m) ∧
      ∀ env body policy v, ⟨.eval env (.go body policy), v⟩ ∈ y.evaluated → v = .nil) ∧
    ∀ (session : Session) (rounds : Nat),
      session.handles.store = (x.run standardHost c).final s → session.inbox = [] →
      ∃ past y, (start c x s).Passes standardHost past y ∧
        y.store = (session.runTasks rounds).handles.store ∧
        y.delivered = (session.runTasks rounds).inbox ∧
        y.main.outcome? = some ((x.run standardHost c).answer s) ∧ y.parties = [] := by
  refine ⟨fun host past y hpasses => ?_, fun session rounds hstore hinbox => ?_⟩
  · have haccounted := (accounted_start c x hs).passes hpasses
    have hattributed := (attributed_start host c x s).passes hpasses
    have hnumbered : y.Numbered := Numbered.passes hpasses ⟨List.nodup_nil, nofun⟩
    refine ⟨fun channel => ⟨?_, haccounted.reports channel⟩, hnumbered.nodup,
      hattributed.messages, fun _ _ _ _ => haccounted.nil_of_evaluated⟩
    have hlength := (haccounted.reports channel).length_eq
    rwa [List.length_append, List.length_map, List.length_map] at hlength
  · obtain ⟨y, ⟨past, hpasses⟩, hfollows, hover⟩ := reaches_runTasks c x s hstore hinbox rounds
    exact ⟨past, y, hpasses, hfollows.store, hfollows.inbox, hover⟩

/-- A task that starts a task, which reports elsewhere. -/
def nestedGo : EntryPoint :=
  .eval (.root 0) (.go (.go (.const (.int 7)) (.report 2)) (.report 1))

/-- A session right after `nestedGo`. -/
def nestedSession : Session where
  handles := { store := (nestedGo.run standardHost ⟨0, 8⟩).final {} }
  interpreter := none

/-- After one round the outer task has sent nil on channel 1, and the inner one, which is to report
on channel 2, has not begun. -/
theorem reports_once_nestedGo : ({} : Store).tasks = [] ∧
    ∃ past y m, (start ⟨0, 8⟩ nestedGo {}).Passes standardHost past y ∧
      y.sent = [m] ∧ m.channel = 1 ∧ m.outcome = .ok .nil ∧ Attests standardHost past m ∧
      (y.unfinished 2).length = 1 ∧ (y.goReports 1).length = 1 ∧ (y.goReports 2).length = 1 := by
  obtain ⟨hevery, hsession⟩ := reports_once ⟨0, 8⟩ nestedGo (s := {}) rfl
  obtain ⟨past, y, hpasses, hstore, hinbox, -, hnone⟩ := hsession nestedSession 1 rfl rfl
  obtain ⟨hcounts, -, hmessages, -⟩ := hevery standardHost past y hpasses
  have hdelivered : y.delivered = [(1, .ok .nil)] := hinbox
  obtain ⟨m, hsent, hm⟩ := List.map_eq_singleton_iff.1 hdelivered
  have hsent : y.sent = [m] := List.reverse_eq_iff.1 hsent
  obtain ⟨hchannel, houtcome⟩ := Prod.mk.inj hm
  have hwaiting (channel : Nat) : y.unfinished channel =
      (nestedSession.runTasks 1).handles.store.tasks.filter (Task.reportsOn channel) := by
    rw [unfinished, hstore, hnone, List.map_nil, List.append_nil]
  have hfirst := (hcounts 1).1
  have hsecond := (hcounts 2).1
  have hone : (y.sentOn 1).length = 1 := by simp [sentOn, hsent, hchannel]
  have htwo : (y.sentOn 2).length = 0 := by simp [sentOn, hsent, hchannel]
  have hover : (y.unfinished 1).length = 0 := by rw [hwaiting]; rfl
  have hinner : (y.unfinished 2).length = 1 := by rw [hwaiting]; rfl
  rw [hone, hover] at hfirst
  rw [htwo, hinner] at hsecond
  exact ⟨rfl, past, y, m, hpasses, hsent, hchannel, houtcome, hmessages m (by simp [hsent]), hinner,
    hfirst.symm, hsecond.symm⟩

end Exchange

end LispCore
