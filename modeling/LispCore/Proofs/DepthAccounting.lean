import LispCore.Proofs.Worker

/-!
# The depth and the limit are given back

A worker counts a level before it checks it, and takes the count back in one place if it was one too
many and in another when the call is over; the functions of an interpreter change the limit and
change it back. `Worker.Balanced` says how the cells stand to the calls that are open: giving back
what these hold leads to the cells of the start, and the depth is the one at the start plus the
analyses and evaluations among them. `Worker.Within` says that host functions are called only where
the depth is within the limit. Every move keeps both, whatever others do to the store in between, and
so a call ends with the cells it began with (`cells_balanced`).
-/

namespace LispCore

/-! ## Giving back -/

namespace Job

variable {job : Job} {c c' : Context}

theorem isActivation_eq (job : Job) : job.isActivation = job.limit?.isNone := by
  cases job <;> rfl

theorem depth_of_acquire (h : job.acquire c = .ok () c') :
    c'.depth = c.depth + if job.isActivation then 1 else 0 := by
  rw [isActivation_eq]
  obtain ⟨limit, hlimit, rfl⟩ | ⟨hlimit, -, rfl⟩ := acquire_cases h
  · rw [hlimit]
    rfl
  · rw [hlimit]
    rfl

theorem depth_release (job : Job) (previous : Nat) (c : Context) :
    (job.release previous c).depth = c.depth - if job.isActivation then 1 else 0 := by
  rw [isActivation_eq, release]
  cases job.limit? <;> rfl

/-- Once a call has been entered, the depth is within the limit: the level was checked, or the limit
was one that may be put in force. -/
theorem depth_le_of_acquire (h : job.acquire c = .ok () c')
    (hlimit : ∀ limit ∈ job.limit?, c.depth ≤ limit) : c'.depth ≤ c'.limit := by
  obtain ⟨limit, hjob, rfl⟩ | ⟨-, hlt, rfl⟩ := acquire_cases h
  · exact hlimit limit hjob
  · exact hlt

end Job

/-- The cells once all open calls have given back what they hold. -/
def CallStack.released {α : Type} : {β : Type} → CallStack α β → Context → Context
  | _, .bottom, c => c
  | _, .push job previous _ rest, c => rest.released (job.release previous c)

namespace Worker

variable {α : Type} {host : Host} {start : Context} {s s' : Store} {w w' : Worker α}
  {ended : List Returned}

/-- How many analyses and evaluations are open. -/
def activations (w : Worker α) : Nat := w.stack.jobs.countP Job.isActivation

/-- How the cells stand to the calls that are open. -/
structure Balanced (start : Context) (w : Worker α) : Prop where
  released : w.stack.released w.cells = start
  depth : w.cells.depth = start.depth + w.activations

theorem balanced_start (c : Context) (x : Routine α) : (Worker.start c x).Balanced c := ⟨rfl, rfl⟩

/-- The innermost call gives back what it holds. -/
theorem Balanced.pop {γ : Type} {c : Context} {job : Job} {previous : Nat} {x : Routine job.Answer}
    {next : job.Answer → Routine γ} {rest : CallStack α γ} {y : Routine γ}
    (h : Balanced start ⟨c, x, .push job previous next rest⟩) :
    Balanced start ⟨job.release previous c, y, rest⟩ := by
  refine ⟨h.released, ?_⟩
  have hdepth : c.depth = start.depth + (job :: rest.jobs).countP Job.isActivation := h.depth
  rw [List.countP_cons] at hdepth
  change (job.release previous c).depth = start.depth + rest.jobs.countP Job.isActivation
  rw [Job.depth_release]
  omega

theorem Balanced.move (hmove : w.Move host s ended s' w') (h : w.Balanced start) :
    w'.Balanced start := by
  cases hmove with
  | ask => exact ⟨h.released, h.depth⟩
  | look => exact ⟨h.released, h.depth⟩
  | native => exact ⟨h.released, h.depth⟩
  | @enter _ _ c c' job next stack hacquire =>
    refine ⟨?_, ?_⟩
    · change stack.released (job.release c.limit c') = start
      rw [Job.release_of_acquire hacquire]
      exact h.released
    · have hdepth : c.depth = start.depth + stack.jobs.countP Job.isActivation := h.depth
      change c'.depth = start.depth + (job :: stack.jobs).countP Job.isActivation
      rw [Job.depth_of_acquire hacquire, hdepth, List.countP_cons, Nat.add_assoc]
  | refuse hacquire =>
    rw [Job.eq_of_acquire_error hacquire]
    exact ⟨h.released, h.depth⟩
  | answer => exact h.pop
  | unwind => exact h.pop

theorem Balanced.reaches {w₀ : Worker α} (hreach : w₀.Reaches host s w) (h : w₀.Balanced start) :
    w.Balanced start := by
  induction hreach with
  | refl => exact h
  | tail _ hmove ih => exact ih.move hmove
  | interfere _ _ ih => exact ih

/-- A worker that is over has given everything back. -/
theorem Balanced.cells_of_outcome {r : Except Error α} (h : w.Balanced start)
    (hover : w.outcome? = some r) : w.cells = start := by
  have hreleased := h.released
  unfold outcome? at hover
  split at hover
  · exact hreleased
  · exact hreleased
  · cases hover

end Worker

/-! ## Within the limit -/

/-- With these cells, host functions may be called if the depth is within the limit, and a limit may
be put in force if it is not below the depth. -/
def Discipline.within (c : Context) : Discipline where
  request _ := True
  native := c.depth ≤ c.limit
  call job := ∀ limit ∈ job.limit?, c.depth ≤ limit

theorem Discipline.within_lenient {c : Context} (h : c.depth ≤ c.limit) : (within c).Lenient where
  request _ _ := trivial
  native := h
  call job hlimit := by
    intro limit hmem
    rw [hlimit] at hmem
    cases hmem

/-- Whatever waits for an answer goes on within the limit that is in force then. -/
def CallStack.Within {α : Type} : {β : Type} → CallStack α β → Context → Prop
  | _, .bottom, _ => True
  | _, .push job previous next rest, c =>
    (∀ a, (next a).Obeys (.within (job.release previous c)) fun _ => True) ∧
      rest.Within (job.release previous c)

namespace Worker

variable {α : Type} {host : Host} {s s' : Store} {w w' : Worker α} {ended : List Returned}

structure Within (w : Worker α) : Prop where
  script : w.script.Obeys (.within w.cells) fun _ => True
  stack : w.stack.Within w.cells

theorem Within.move (hmove : w.Move host s ended s' w') (h : w.Within) : w'.Within := by
  cases hmove with
  | ask => exact ⟨h.script.2 _, h.stack⟩
  | look => exact ⟨h.script _, h.stack⟩
  | native => exact ⟨h.script.2 _, h.stack⟩
  | @enter _ _ c c' job next stack hacquire =>
    obtain ⟨hlimit, hnext⟩ := h.script
    have hstack := h.stack
    have hle : c'.depth ≤ c'.limit := Job.depth_le_of_acquire hacquire hlimit
    refine ⟨(Discipline.within_lenient hle).body_obeys host job fun _ _ _ _ _ => trivial, ?_⟩
    unfold CallStack.Within
    rw [Job.release_of_acquire hacquire]
    exact ⟨hnext, hstack⟩
  | refuse hacquire =>
    rw [Job.eq_of_acquire_error hacquire]
    exact ⟨trivial, h.stack⟩
  | answer => exact ⟨h.stack.1 _, h.stack.2⟩
  | unwind => exact ⟨trivial, h.stack.2⟩

theorem Within.reaches {w₀ : Worker α} (hreach : w₀.Reaches host s w) (h : w₀.Within) :
    w.Within := by
  induction hreach with
  | refl => exact h
  | tail _ hmove ih => exact ih.move hmove
  | interfere _ _ ih => exact ih

/-- The next move of the worker is the call of a host function. -/
def Calls (w : Worker α) (name : String) (args : List Value) : Prop :=
  ∃ next, w.script = .native name args next

theorem Within.depth_le {name : String} {args : List Value} (h : w.Within)
    (hcalls : w.Calls name args) : w.cells.depth ≤ w.cells.limit := by
  obtain ⟨next, hscript⟩ := hcalls
  have hobeys := h.script
  rw [hscript] at hobeys
  exact hobeys.1

end Worker

/-! ## The functions that a program can call -/

namespace EntryPoint

/-- A function that starts within its limit calls host functions within it only. -/
theorem routine_within {c : Context} {x : EntryPoint} (h : c.depth ≤ x.limit c) :
    x.routine.Obeys (.within c) fun _ => True := by
  refine routine_obeys (fun _ _ => trivial) (fun job hjob limit hmem => ?_) fun f args hx => ?_
  · rcases hjob with hjob | hjob
    · rw [hjob] at hmem
      cases hmem
    · rw [hjob] at hmem
      rwa [EntryPoint.limit, Option.mem_def.1 hmem] at h
  · subst hx
    exact Discipline.within_lenient h

/-- The depth and the limit are balanced on every path. Each function that a program can call comes
to its end, from every store, with the cells that it began with, and a worker that runs it has them
again however it ends and whatever others have done to the store. If it begins within the limit that
it runs under, every host function inside it is called within the limit in force there, at the depth
of the start plus the number of analyses and evaluations that are open. -/
theorem cells_balanced (host : Host) (c : Context) (x : EntryPoint) :
    (∀ s, ∃ w, (Worker.start c x.routine).Moves host s ((x.run host c).final s) w ∧
      w.outcome? = some ((x.run host c).answer s) ∧ w.cells = c) ∧
    ∀ (s : Store) (w : Worker x.Answer), (Worker.start c x.routine).Reaches host s w →
      (∀ r, w.outcome? = some r → w.cells = c) ∧
      (c.depth ≤ x.limit c → ∀ name args, w.Calls name args →
        w.cells.depth ≤ w.cells.limit ∧ w.cells.depth = c.depth + w.activations) := by
  refine ⟨x.moves_run host c, fun s w hreach => ?_⟩
  have hbalanced : w.Balanced c := (Worker.balanced_start c x.routine).reaches hreach
  refine ⟨fun r hover => hbalanced.cells_of_outcome hover, fun hle name args hcalls => ?_⟩
  have hwithin : w.Within := Worker.Within.reaches hreach ⟨routine_within hle, trivial⟩
  exact ⟨hwithin.depth_le hcalls, hbalanced.depth⟩

/-- The call of a host function, with an argument to evaluate first. -/
def sumExpr : Expr := .invoke "+" (.const (.native ⟨0, "+", some "+"⟩)) [.const (.int 1)]

/-- The sum is taken one level below the start. -/
theorem cells_balanced_sum :
    ∃ w, (Worker.start ⟨3, 7⟩ (EntryPoint.eval (.root 0) sumExpr).routine).Reaches standardHost {} w ∧
      w.Calls "+" [.int 1] ∧ w.cells.depth ≤ w.cells.limit ∧
      w.cells.depth = 3 + w.activations ∧ w.activations = 1 := by
  let stack : CallStack Value Value := .push (.eval (.root 0) sumExpr) 7 .done .bottom
  let w : Worker Value := ⟨⟨4, 7⟩, Routine.perform (.native ⟨0, "+", some "+"⟩) [.int 1], stack⟩
  have hconst (v : Value) (f : Value → Routine Value) : Worker.Moves standardHost {}
      ⟨⟨4, 7⟩, .call (.eval (.root 0) (.const v)) .done >>= f, stack⟩ {} ⟨⟨4, 7⟩, f v, stack⟩ :=
    working_eval rfl (.root 0) (.const v) Value Value f stack {}
  have hreach : (Worker.start ⟨3, 7⟩ (EntryPoint.eval (.root 0) sumExpr).routine).Reaches
      standardHost {} w :=
    ((Worker.Reaches.tail (.refl {}) (.enter rfl)).moves (hconst _ _)).moves (hconst _ _)
  have hcalls : w.Calls "+" [.int 1] := ⟨_, Routine.perform_native rfl [.int 1]⟩
  obtain ⟨hle, hdepth⟩ := ((cells_balanced standardHost ⟨3, 7⟩ (.eval (.root 0) sumExpr)).2 {} w
    hreach).2 (by decide) "+" [.int 1] hcalls
  exact ⟨w, hreach, hcalls, hle, hdepth, rfl⟩

end EntryPoint

end LispCore
