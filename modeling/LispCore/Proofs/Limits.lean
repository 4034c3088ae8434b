import LispCore.Proofs.Agreement

/-!
# Limits only cut runs off

The limit on nesting and the bound on expansions decide when a run is cut off and nothing else. Two
runs under different limits are compared by `truncation`: the second does what the first does,
unless the first is cut off or has started a task, which keeps the limit it was started under.

What a host function is told about the depth it could tell a program, so this is for runs that call
only host functions that do not look (`Host.Blind`, `CallsOnly`).
-/

namespace LispCore

/-- The errors of a run that was cut off. -/
def Error.isLimit : Error → Bool
  | depthExceeded _ => true
  | expansionLimit _ _ => true
  | _ => false

/-! ## Host functions that do not look at the depth -/

namespace Host

/-- The function does the same at every depth and under every limit. -/
def Blind (host : Host) (name : String) : Prop :=
  ∀ c c' args, host name c args = host name c' args

/-- The host with only some of its functions; the others raise `alarm`. -/
def only (host : Host) (allowed : String → Bool) (alarm : Error) : Host := fun name c args =>
  if allowed name then host name c args else .done (.error alarm)

/-- With fewer functions, what the host does is the alarm, or what it does at any other depth with
all of them. -/
theorem only_cases {host : Host} {allowed : String → Bool} {alarm : Error}
    (hblind : ∀ name, allowed name = true → host.Blind name) (c c' : Context) (name : String)
    (args : List Value) :
    host.only allowed alarm name c args = host name c' args ∨
      host.only allowed alarm name c args = .done (.error alarm) := by
  unfold only
  split
  · next hallowed => exact .inl (hblind name hallowed c c' args)
  · exact .inr rfl

end Host

/-- The functions that the standard host carries out without a look at the depth or the limit. -/
def Builtin.isBlind (name : String) : Bool :=
  name != Builtin.depth.name && name != Builtin.limit.name

theorem Builtin.name_of_ofName? {name : String} {b : Builtin} (h : ofName? name = some b) :
    b.name = name := by
  simpa using List.find?_some h

theorem standardHost_blind (name : String) (h : Builtin.isBlind name = true) :
    standardHost.Blind name := by
  intro c c' args
  unfold standardHost
  cases hb : Builtin.ofName? name with
  | none => rfl
  | some b =>
    have hname := Builtin.name_of_ofName? hb
    have hrun : b.run c args = b.run c' args := by
      unfold Builtin.run
      split <;> try rfl
      -- the two builtins that do look remain
      · subst hname; cases h
      · subst hname; cases h
    dsimp only [Builtin.reply]
    split
    · rfl
    · rfl
    · rw [hrun]

/-- The run calls no host function outside `allowed`: if each of the others raised an alarm, it would
not go off. Nothing catches errors, so it would if one of them were called. -/
def CallsOnly {α : Type} (allowed : String → Bool) (host : Host) (run : Host → Run α)
    (s : Store) : Prop :=
  ∃ alarm, (run (host.only allowed alarm)).answer s ≠ .error alarm

/-! ## Runs that may be cut off -/

/-- The outcome of a run is compared: it is none of the `lost` errors, and if tasks are told apart,
the run has started none. -/
structure Run.Kept {α : Type} (lost : Error → Prop) (apart : Prop) (run : Run α) (s : Store) :
    Prop where
  error (e : Error) (h : run.answer s = .error e) : ¬ lost e
  tasks (h : apart) : (run.final s).tasks.length = s.tasks.length

namespace Run.Kept

variable {α β : Type} {lost : Error → Prop} {apart : Prop}

theorem congr {x : Run α} {y : Run β} {s s' : Store}
    (herror : ∀ e, y.answer s' = .error e → x.answer s = .error e)
    (hfinal : x.final s = y.final s') (htasks : apart → s.tasks.length = s'.tasks.length)
    (h : x.Kept lost apart s) : y.Kept lost apart s' where
  error e he := h.error e (herror e he)
  tasks ha := by rw [← hfinal, h.tasks ha, htasks ha]

end Run.Kept

/-- The second run ends as the first does wherever the outcome of the first is kept. Tasks are only
ever added, so a run that starts none starts none in any of its parts. -/
def truncation (lost : Error → Prop) (apart : Prop) : Agreement Run Run where
  rel x y := ∀ s, s.tasks.length ≤ (x.final s).tasks.length ∧
    (x.Kept lost apart s → y s = x s)
  pure _ _ := ⟨Nat.le_refl _, fun _ => rfl⟩
  fail _ _ := ⟨Nat.le_refl _, fun _ => rfl⟩
  bind {_ _ x y f g} hx hf s := by
    obtain ⟨hgrow, hkept⟩ := hx s
    cases h : x s with
    | error e s' =>
      have hbind := Run.bind_of_error (f := f) h
      have hfinal : (x >>= f).final s = x.final s := by
        simp only [Run.final, hbind, h]
      refine ⟨hfinal ▸ hgrow, fun hk => ?_⟩
      have hx' : x.Kept lost apart s := by
        refine hk.congr (fun e he => ?_) hfinal fun _ => rfl
        simp only [Run.answer, hbind, h] at he ⊢
        cases he; rfl
      rw [hbind, Run.bind_of_error ((hkept hx').trans h)]
    | ok a s' =>
      obtain ⟨hgrow', hkept'⟩ := hf a s'
      have hbind := Run.bind_of_ok (f := f) h
      have hfinal : (x >>= f).final s = (f a).final s' := Run.final_congr hbind
      rw [Run.final_of_ok h] at hgrow
      rw [hfinal]
      refine ⟨Nat.le_trans hgrow hgrow', fun hk => ?_⟩
      -- the tasks of `s'` lie between those at both ends, which are as many
      have htasks (ha : apart) : s'.tasks.length = s.tasks.length := by
        have := hk.tasks ha
        rw [hfinal] at this
        omega
      have hx' : x.Kept lost apart s := by
        refine ⟨fun e he => ?_, fun ha => ?_⟩
        · simp only [Run.answer, h] at he
          cases he
        · rw [Run.final_of_ok h, htasks ha]
      have hf' : (f a).Kept lost apart s' := by
        refine hk.congr (fun e he => ?_) hfinal fun ha => (htasks ha).symm
        rw [Run.answer_congr hbind, he]
      rw [hbind, Run.bind_of_ok ((hkept hx').trans h), hkept' hf']

theorem Store.tasks_answer (s : Store) (r : Request) :
    s.tasks.length ≤ (s.answer r).2.tasks.length := by
  cases r with
  | lookup root symbol => exact Nat.le_refl _
  | define root symbol v =>
    simp only [answer]
    split
    · exact Nat.le_refl _
    · exact Nat.le_refl _
  | freshId => exact Nat.le_refl _
  | spawn task => exact Nat.le_succ _

section

variable {lost : Error → Prop} {apart : Prop}

theorem truncation_answers : (truncation lost apart).Answers :=
  fun r _ s => ⟨s.tasks_answer r, fun _ => rfl⟩

theorem truncation_spawn {t t' : Task} (h : t = t' ∨ apart) :
    (truncation lost apart).rel (request (.spawn t)) (request (.spawn t')) := by
  intro s
  refine ⟨s.tasks_answer (.spawn t), fun hk => ?_⟩
  rcases h with rfl | ha
  · rfl
  · exact absurd (hk.tasks ha) (Nat.succ_ne_self _)

theorem truncation_forgives {e : Error} (h : lost e) : (truncation lost apart).Forgives e :=
  fun _ _ => ⟨Nat.le_refl _, fun hk => absurd h (hk.error e rfl)⟩

end

/-! ## Evaluation and analysis -/

/-- What two runs under two limits have to do with each other: the first has only host functions that
are blind to the depth, and an alarm instead of the others. -/
structure Limited (lost : Error → Prop) (apart : Prop) (host : Host) (allowed : String → Bool)
    (alarm : Error) (limit limit' : Nat) : Prop where
  blind (name : String) (h : allowed name = true) : host.Blind name
  alarm : lost alarm
  spawn : limit = limit' ∨ apart

/-- The levels left under two limits: as many, or more under the second. -/
structure Deepened (lost : Error → Prop) (limit limit' left left' : Nat) : Prop where
  le : left ≤ left'
  exceeded : left = left' ∧ limit = limit' ∨ lost (.depthExceeded limit)

/-- Analyzers that differ in the bound on expansions only: the same, or more for the second. -/
structure Analyzer.Widened (lost : Error → Prop) (a a' : Analyzer) : Prop where
  specials : a.specials = a'.specials
  spawnPolicy : a.spawnPolicy = a'.spawnPolicy
  le : a.maxExpansions ≤ a'.maxExpansions
  exceeded : a.maxExpansions = a'.maxExpansions ∨
    ∀ text, lost (.expansionLimit text a.maxExpansions)

theorem Deepened.pred {lost : Error → Prop} {limit limit' left left' : Nat}
    (h : Deepened lost limit limit' (left + 1) left') :
    ∃ k, left' = k + 1 ∧ Deepened lost limit limit' left k := by
  have hle := h.le
  refine ⟨left' - 1, by omega, by omega, ?_⟩
  exact h.exceeded.imp_left fun ⟨hleft, hlimit⟩ => ⟨by omega, hlimit⟩

namespace Limited

variable {lost : Error → Prop} {apart : Prop} {host : Host} {allowed : String → Bool}
  {alarm : Error} {limit limit' left left' : Nat}

theorem exceeded {α : Type} (h : Deepened lost limit limit' 0 left') {y : Run α}
    (hy : left' = 0 → y = fail (.depthExceeded limit')) :
    (truncation lost apart).rel (fail (.depthExceeded limit)) y := by
  rcases h.exceeded with ⟨hleft, rfl⟩ | hlost
  · rw [hy hleft.symm]
    exact (truncation lost apart).fail _
  · exact truncation_forgives hlost _

/-- With more levels left, evaluation goes on where it was cut off and is the same elsewhere. -/
theorem eval (h : Limited lost apart host allowed alarm limit limit')
    (hleft : Deepened lost limit limit' left left') (env : Env) (e : Expr) :
    (truncation lost apart).rel (eval (host.only allowed alarm) limit left env e)
      (eval host limit' left' env e) := by
  induction left generalizing left' env e with
  | zero => exact exceeded hleft fun hzero => by rw [hzero, eval_zero]
  | succ left ih =>
    obtain ⟨left', rfl, hpred⟩ := hleft.pred
    rw [eval_succ, eval_succ]
    have hdeeper := ih hpred
    refine Level.evalNode_agree truncation_answers ⟨hdeeper, ?_, ?_⟩ env e
    · refine Level.apply_agree hdeeper fun name args => ?_
      exact (Host.only_cases h.blind _ _ name args).imp_right fun hreply =>
        ⟨alarm, hreply, truncation_forgives h.alarm⟩
    · intro env body policy
      exact truncation_spawn (h.spawn.imp_left fun hlimit => by rw [hlimit])

/-- The same for macro expansion, with more rounds. -/
theorem expand (h : Limited lost apart host allowed alarm limit limit')
    (hleft : Deepened lost limit limit' left left') {a a' : Analyzer} (ha : a.Widened lost a')
    (c c' : Context) (env : Env) (form : Value) :
    (truncation lost apart).rel
      (Level.expand ⟨host.only allowed alarm, c, LispCore.eval (host.only allowed alarm) limit left⟩
        a.maxExpansions env form)
      (Level.expand ⟨host, c', LispCore.eval host limit' left'⟩ a'.maxExpansions env form) := by
  unfold Level.expand
  refine Level.expandLoop_agree (fun form => ?_) ha.le ?_ form
  · exact Level.expandOnce_agree truncation_answers (h.eval hleft) env form
  · exact ha.exceeded.imp (fun heq => ⟨heq, heq⟩) fun hlost => truncation_forgives (hlost _)

/-- The same for analysis. -/
theorem analyze (h : Limited lost apart host allowed alarm limit limit')
    (hleft : Deepened lost limit limit' left left') {a a' : Analyzer} (ha : a.Widened lost a')
    (env : Env) (form : Value) :
    (truncation lost apart).rel (a.analyze (host.only allowed alarm) limit left env form)
      (a'.analyze host limit' left' env form) := by
  induction left generalizing left' env form with
  | zero => exact exceeded hleft fun hzero => by rw [hzero]; rfl
  | succ left ih =>
    obtain ⟨left', rfl, hpred⟩ := hleft.pred
    rw [Analyzer.analyze_succ, Analyzer.analyze_succ]
    refine Analyzer.analyzeForm_agree ha.specials ha.spawnPolicy (fun _ form _ => form.respects_eq)
      ?_ (.of_eq (ih hpred)) rfl
    exact h.expand hpred ha _ _ env form

end Limited

/-! ## More levels -/

section

variable {host : Host} {allowed : String → Bool} {limit left left' : Nat} {env : Env} {e : Expr}
  {s : Store}

/-- An evaluation in which no alarm goes off is the evaluation without alarms. -/
theorem eval_only {alarm : Error} (hblind : ∀ name, allowed name = true → host.Blind name)
    (hquiet : (eval (host.only allowed alarm) limit left env e : Run Value).answer s
      ≠ .error alarm) :
    (eval host limit left env e : Run Value) s =
      (eval (host.only allowed alarm) limit left env e : Run Value) s := by
  have hlimited : Limited (· = alarm) False host allowed alarm limit limit :=
    ⟨hblind, rfl, .inl rfl⟩
  refine (hlimited.eval ⟨Nat.le_refl left, .inl ⟨rfl, rfl⟩⟩ env e s).2 ⟨fun e' he => ?_, False.elim⟩
  rintro rfl
  exact hquiet he

/-- An evaluation that has enough levels goes the same way if it has more. -/
theorem eval_of_le (hblind : ∀ name, allowed name = true → host.Blind name) (hle : left ≤ left')
    (hcalls : CallsOnly allowed host (fun host => eval host limit left env e) s)
    (hdepth : (eval host limit left env e : Run Value).answer s ≠ .error (.depthExceeded limit)) :
    (eval host limit left' env e : Run Value) s = (eval host limit left env e : Run Value) s := by
  obtain ⟨alarm, hquiet⟩ := hcalls
  have hsame := eval_only hblind hquiet
  rw [Run.answer_congr hsame] at hdepth
  rw [hsame]
  have hlimited : Limited (fun e => e = alarm ∨ e = .depthExceeded limit) False host allowed alarm
      limit limit := ⟨hblind, .inl rfl, .inl rfl⟩
  refine (hlimited.eval ⟨hle, .inr (.inr rfl)⟩ env e s).2 ⟨fun e' he => ?_, False.elim⟩
  rintro (rfl | rfl)
  · exact hquiet he
  · exact hdepth he

end

/-! ## Raising the limits -/

/-- The run of a form from a depth, under a limit on nesting and a bound on expansions. -/
def Analyzer.runWithin (a : Analyzer) (host : Host) (depth limit max : Nat) (env : Env)
    (form : Value) : Run Value :=
  { a with maxExpansions := max }.evalTop host ⟨depth, limit⟩ env form

namespace Analyzer

variable (a : Analyzer) {host : Host} {allowed : String → Bool} (env : Env) (form : Value)
  {s : Store} {depth limit limit' max max' : Nat}

theorem runWithin_truncation {lost : Error → Prop} {apart : Prop} {alarm : Error}
    (h : Limited lost apart host allowed alarm limit limit')
    (hleft : Deepened lost limit limit' (limit - depth) (limit' - depth)) (hmax : max ≤ max')
    (hrounds : max = max' ∨ ∀ text, lost (.expansionLimit text max)) :
    (truncation lost apart).rel (a.runWithin (host.only allowed alarm) depth limit max env form)
      (a.runWithin host depth limit' max' env form) := by
  have hwidened : Widened lost { a with maxExpansions := max } { a with maxExpansions := max' } :=
    ⟨rfl, rfl, hmax, hrounds⟩
  exact (truncation lost apart).bind (h.analyze hleft hwidened env form) fun e => h.eval hleft env e

/-- A run in which no alarm goes off is the run without alarms. -/
theorem runWithin_only {alarm : Error} (hblind : ∀ name, allowed name = true → host.Blind name)
    (hquiet : (a.runWithin (host.only allowed alarm) depth limit max env form).answer s
      ≠ .error alarm) :
    a.runWithin host depth limit max env form s =
      a.runWithin (host.only allowed alarm) depth limit max env form s := by
  have hlimited : Limited (· = alarm) False host allowed alarm limit limit :=
    ⟨hblind, rfl, .inl rfl⟩
  have hrun := a.runWithin_truncation env form hlimited
    ⟨Nat.le_refl (limit - depth), .inl ⟨rfl, rfl⟩⟩ (Nat.le_refl max) (.inl rfl)
  refine (hrun s).2 ⟨fun e he => ?_, False.elim⟩
  rintro rfl
  exact hquiet he

/-- The limits only cut runs off: a run that ends under a limit on nesting and a bound on
expansions, in whatever but one of the two limit errors, ends under greater ones in the same outcome
and the same store, provided that it starts no task and calls only host functions that are blind to
the depth and the limit. -/
theorem runWithin_of_le (hblind : ∀ name, allowed name = true → host.Blind name)
    (hlimit : limit ≤ limit') (hmax : max ≤ max')
    (hcalls : CallsOnly allowed host
      (fun host => a.runWithin host depth limit max env form) s)
    (hcut : ∀ e, (a.runWithin host depth limit max env form).answer s = .error e →
      e.isLimit = false)
    (hgo : ((a.runWithin host depth limit max env form).final s).tasks = s.tasks) :
    a.runWithin host depth limit' max' env form s =
      a.runWithin host depth limit max env form s := by
  obtain ⟨alarm, hquiet⟩ := hcalls
  have hsame := a.runWithin_only env form hblind hquiet
  rw [Run.answer_congr hsame] at hcut
  rw [Run.final_congr hsame] at hgo
  rw [hsame]
  have hlimited : Limited (fun e => e = alarm ∨ e.isLimit = true) True host allowed alarm
      limit limit' := ⟨hblind, .inl rfl, .inr trivial⟩
  have hdeepened : Deepened (fun e => e = alarm ∨ e.isLimit = true) limit limit'
      (limit - depth) (limit' - depth) := ⟨by omega, .inr (.inr rfl)⟩
  have hrun := a.runWithin_truncation env form hlimited hdeepened hmax (.inr fun _ => .inr rfl)
  refine (hrun s).2 ⟨fun e he => ?_, fun _ => by rw [hgo]⟩
  rintro (rfl | hlost)
  · exact hquiet he
  · rw [hcut e he] at hlost
    cases hlost

/-- Globals in which `(three)` expands to `(+ 1 2)`. -/
def threeGlobals : Globals :=
  let sum : Value := .list [.symbol ⟨none, "+"⟩, .int 1, .int 2]
  ⟨"user", [("user", [
    ("+", .native ⟨0, "+", some "+"⟩),
    ("three", .fn ⟨1, none, none, true, [⟨[], false, some (.quote sum)⟩], some (.root 0)⟩)])]⟩

/-- Two levels and one expansion are enough for `(three)`, so are any greater numbers. -/
theorem runWithin_three :
    standard.runWithin standardHost 0 10000 1024 (.root 0) (.list [.symbol ⟨none, "three"⟩])
      { roots := [threeGlobals] } = .ok (.int 3) { roots := [threeGlobals] } := by
  have hrun : standard.runWithin standardHost 0 2 1 (.root 0) (.list [.symbol ⟨none, "three"⟩])
      { roots := [threeGlobals] } = .ok (.int 3) { roots := [threeGlobals] } := by cbv
  have halarm : standard.runWithin (standardHost.only Builtin.isBlind (.eval "alarm")) 0 2 1
      (.root 0) (.list [.symbol ⟨none, "three"⟩]) { roots := [threeGlobals] } =
      .ok (.int 3) { roots := [threeGlobals] } := by cbv
  rw [← hrun]
  refine runWithin_of_le standard (.root 0) _ standardHost_blind (by decide) (by decide) ?_ ?_ ?_
  · refine ⟨.eval "alarm", ?_⟩
    simp only [Run.answer, halarm]
    intro h
    cases h
  · intro e he
    simp only [Run.answer, hrun] at he
    cases he
  · rw [Run.final_of_ok hrun]

end Analyzer

end LispCore
