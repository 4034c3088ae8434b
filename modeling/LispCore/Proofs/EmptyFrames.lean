import LispCore.Proofs.Compaction
import LispCore.Proofs.Limits

/-!
# Empty frames cannot be seen

Two runs are similar when from stores that are alike, up to empty frames, they end alike. Everything
that evaluation does keeps runs similar, so evaluation in environments that are alike ends alike
(`eval_similar`): a frame that binds nothing may be inserted anywhere in a chain
(`eval_insertFrame`), and a task, which runs in such a frame, ends as its body does. This takes a
host that does not tell closures apart by the empty frames they have captured, and it is about
expressions: a host function or a special form that looks at frames sees them (`insertFrame_seen`).
-/

namespace LispCore

/-! ## Runs that end alike -/

namespace Run

variable {α β γ δ : Type}

/-- How a run ended, without empty frames; `c` leaves them out of the answer. -/
def outline (c : α → β) : EStateM.Result Error Store α → EStateM.Result Error Store β
  | .ok a s => .ok (c a) s.compact
  | .error e s => .error e s.compact

/-- From stores that are alike the runs end alike. -/
def Similar (c : α → β) (x y : Run α) : Prop :=
  ∀ s t : Store, s.compact = t.compact → outline c (x s) = outline c (y t)

namespace Similar

variable {c : α → β} {d : γ → δ}

theorem pure {a b : α} (h : c a = c b) : Similar c (pure a) (pure b) := by
  intro s t hst
  change EStateM.Result.ok (c a) s.compact = .ok (c b) t.compact
  rw [h, hst]

theorem fail (e : Error) : Similar c (fail e) (fail e) :=
  fun _ _ hst => congrArg (EStateM.Result.error e) hst

theorem ofExcept {r r' : Except Error α} (h : r.map c = r'.map c) :
    Similar c (ofExcept r) (ofExcept r') := by
  obtain ⟨a, b, rfl, rfl, hab⟩ | ⟨e, rfl, rfl⟩ := alike_cases h
  · exact .pure hab
  · exact .fail e

theorem bind {x y : Run α} {f g : α → Run γ} (hx : Similar c x y)
    (hf : ∀ a b, c a = c b → Similar d (f a) (g b)) : Similar d (x >>= f) (y >>= g) := by
  intro s t hst
  have hxy := hx s t hst
  cases hxs : x s with
  | ok a s' =>
    rw [hxs] at hxy
    cases hyt : y t with
    | ok b t' =>
      rw [hyt] at hxy
      injection hxy with hab hst'
      rw [bind_of_ok hxs, bind_of_ok hyt]
      exact hf a b hab s' t' hst'
    | error e t' => rw [hyt] at hxy; cases hxy
  | error e s' =>
    rw [hxs] at hxy
    cases hyt : y t with
    | ok b t' => rw [hyt] at hxy; cases hxy
    | error e' t' =>
      rw [hyt] at hxy
      injection hxy with he hst'
      rw [bind_of_error hxs, bind_of_error hyt, he]
      exact congrArg (EStateM.Result.error e') hst'

theorem mapM {xs : List γ} {f g : γ → Run α} (h : ∀ x ∈ xs, Similar c (f x) (g x)) :
    Similar (List.map c) (xs.mapM f) (xs.mapM g) := by
  -- `mapM` collects the results in reverse, so the induction is for every start of the collection
  suffices go : ∀ acc acc' : List α, acc.map c = acc'.map c →
      Similar (List.map c) (List.mapM.loop f xs acc) (List.mapM.loop g xs acc') from go [] [] rfl
  induction xs with
  | nil =>
    intro acc acc' hacc
    refine .pure ?_
    rw [List.map_reverse, List.map_reverse, hacc]
  | cons x xs ih =>
    intro acc acc' hacc
    refine .bind (h x List.mem_cons_self) fun a b hab => ?_
    refine ih (fun y hy => h y (List.mem_cons_of_mem x hy)) (a :: acc) (b :: acc') ?_
    rw [List.map_cons, List.map_cons, hab, hacc]

theorem foldlM {xs : List γ} {f g : α → γ → Run α}
    (h : ∀ a b, c a = c b → ∀ x ∈ xs, Similar c (f a x) (g b x)) {init init' : α}
    (hinit : c init = c init') : Similar c (xs.foldlM f init) (xs.foldlM g init') := by
  induction xs generalizing init init' with
  | nil => exact .pure hinit
  | cons x xs ih =>
    refine .bind (h init init' hinit x List.mem_cons_self) fun a b hab => ?_
    exact ih (fun a b hab y hy => h a b hab y (List.mem_cons_of_mem x hy)) hab

/-! What the store answers. -/

theorem lookup (root : Nat) (symbol : Symbol) :
    Similar (Except.map Value.compact) (request (.lookup root symbol))
      (request (.lookup root symbol)) := by
  intro s t hst
  have hanswer : ((s.globals root).lookup symbol).map Value.compact =
      ((t.globals root).lookup symbol).map Value.compact := by
    rw [← Globals.lookup_compact, ← Globals.lookup_compact, ← s.globals_compact,
      ← t.globals_compact, hst]
  change EStateM.Result.ok (((s.globals root).lookup symbol).map Value.compact) s.compact =
    .ok (((t.globals root).lookup symbol).map Value.compact) t.compact
  rw [hanswer, hst]

theorem define (root : Nat) (symbol : Symbol) {v w : Value} (h : v.compact = w.compact) :
    Similar id (request (.define root symbol v)) (request (.define root symbol w)) := by
  intro s t hst
  have hdefined : ((s.globals root).define symbol v).map Globals.compact =
      ((t.globals root).define symbol w).map Globals.compact := by
    rw [← Globals.define_compact, ← Globals.define_compact, ← s.globals_compact,
      ← t.globals_compact, hst, h]
  change EStateM.Result.ok (s.answer (.define root symbol v)).1
      (s.answer (.define root symbol v)).2.compact =
    .ok (t.answer (.define root symbol w)).1 (t.answer (.define root symbol w)).2.compact
  simp only [Store.answer]
  obtain ⟨g, g', hs, ht, hg⟩ | ⟨e, hs, ht⟩ := alike_cases hdefined
  · rw [hs, ht]
    dsimp only
    rw [s.setGlobals_compact, t.setGlobals_compact, hst, hg]
  · rw [hs, ht]
    dsimp only
    rw [hst]

theorem freshId : Similar id (request .freshId) (request .freshId) := by
  intro s t hst
  obtain ⟨hroots, hnext, htasks⟩ := Store.mk.inj hst
  have hstore : Store.compact { s with nextId := s.nextId + 1 } =
      Store.compact { t with nextId := t.nextId + 1 } := by
    rw [Store.compact, Store.compact, hroots, hnext, htasks]
  change EStateM.Result.ok s.nextId (Store.compact { s with nextId := s.nextId + 1 }) =
    .ok t.nextId (Store.compact { t with nextId := t.nextId + 1 })
  rw [hstore, hnext]

theorem spawn {task task' : Task} (h : task.compact = task'.compact) :
    Similar id (request (.spawn task)) (request (.spawn task')) := by
  intro s t hst
  obtain ⟨hroots, hnext, htasks⟩ := Store.mk.inj hst
  have hstore : Store.compact { s with tasks := task :: s.tasks } =
      Store.compact { t with tasks := task' :: t.tasks } := by
    rw [Store.compact, Store.compact, List.map_cons, List.map_cons, hroots, hnext, htasks, h]
  exact congrArg (EStateM.Result.ok ()) hstore

theorem lookupM {env env' : Env} (henv : env.compact = env'.compact) (symbol : Symbol) :
    Similar (Except.map Value.compact) (env.lookupM symbol) (env'.lookupM symbol) := by
  have hroot : env.rootId = env'.rootId := by
    rw [← env.rootId_compact, henv, env'.rootId_compact]
  have hfind : (env.find? symbol.base).map Value.compact =
      (env'.find? symbol.base).map Value.compact := by
    rw [← env.find?_compact, henv, env'.find?_compact]
  unfold Env.lookupM
  rw [hroot]
  cases symbol.space with
  | some ns => exact lookup env'.rootId symbol
  | none =>
    cases hown : env.find? symbol.base with
    | none =>
      rw [hown] at hfind
      rw [Option.map_eq_none_iff.1 hfind.symm]
      exact lookup env'.rootId symbol
    | some v =>
      rw [hown] at hfind
      obtain ⟨w, hw, hvw⟩ := Option.map_eq_some_iff.1 hfind.symm
      rw [hw]
      exact .pure (congrArg Except.ok hvw.symm)

end Similar

end Run

/-! ## Evaluation -/

namespace Level

variable {lv : Level Run}

/-- Evaluation one level deeper ends alike in environments that are alike. -/
def Insensitive (lv : Level Run) : Prop :=
  ∀ env env' e, env.compact = env'.compact →
    Run.Similar Value.compact (lv.eval env e) (lv.eval env' e)

namespace Insensitive

theorem option (h : lv.Insensitive) {env env' : Env} (henv : env.compact = env'.compact)
    (e : Option Expr) :
    Run.Similar Value.compact (lv.evalOption env e) (lv.evalOption env' e) := by
  cases e with
  | none => exact .pure rfl
  | some e => exact h env env' e henv

theorem closure (h : lv.Insensitive) {f g : Closure} {args args' : List Value}
    (hf : f.compact = g.compact) (hargs : args.map Value.compact = args'.map Value.compact) :
    Run.Similar Value.compact (lv.applyClosure f args) (lv.applyClosure g args') := by
  unfold applyClosure
  obtain ⟨entered, entered', hown, hother, halike⟩ | ⟨e, hown, hother⟩ :=
    alike_cases (Closure.enter_alike hf hargs)
  · obtain ⟨henv, hbody⟩ := Prod.mk.inj halike
    rw [hown, hother]
    dsimp only
    rw [hbody]
    exact h entered.1 entered'.1 entered'.2 henv
  · rw [hown, hother]
    exact .fail e

/-- What host functions that do alike come to, if the calls that they make do. -/
theorem follow {args args' : List Value}
    {call : (f : Value) → (xs : List Value) → f.callSize xs ≤ sizeOf args → Run Value}
    {call' : (f : Value) → (xs : List Value) → f.callSize xs ≤ sizeOf args' → Run Value}
    (hcall : ∀ f xs bounded g ys bounded', f.compact = g.compact →
      xs.map Value.compact = ys.map Value.compact →
      Run.Similar Value.compact (call f xs bounded) (call' g ys bounded'))
    {reply : Reply args} {reply' : Reply args'} (h : reply.Alike reply') :
    Run.Similar Value.compact (reply.follow call) (reply'.follow call') := by
  induction reply generalizing reply' with
  | done r =>
    cases reply' with
    | done r' => exact .ofExcept h
    | call g ys bounded' next' => exact h.elim
  | call f xs bounded next ih =>
    cases reply' with
    | done r' => exact h.elim
    | call g ys bounded' next' =>
      refine .bind (hcall f xs bounded g ys bounded' h.1.1 h.1.2) fun v w hvw => ?_
      exact ih v (h.2 v w hvw)

theorem call (h : lv.Insensitive) (hhost : lv.host.Discreet) {f g : Value} {args args' : List Value}
    (hf : f.compact = g.compact) (hargs : args.map Value.compact = args'.map Value.compact) :
    Run.Similar Value.compact (lv.apply f args) (lv.apply g args') := by
  induction f, args using apply_induction generalizing g args' with
  | fn f args =>
    cases g with
    | fn g =>
      rw [apply_fn, apply_fn]
      exact h.closure (Value.fn.inj hf) hargs
    | _ => cases hf
  | native f name args hname ih =>
    cases g with
    | native g =>
      cases hf
      rw [lv.apply_native hname, lv.apply_native hname]
      exact follow (fun f xs bounded g ys _ hfg hxs => ih f xs bounded hfg hxs)
        (hhost name lv.context args args' hargs)
    | _ => cases hf
  | uncallable f args hname =>
    cases g with
    | native g =>
      cases hf
      rw [lv.apply_uncallable hname, lv.apply_uncallable hname]
      exact .fail _
    | _ => cases hf
  | other f args hother =>
    have hg : g.isInvokable = false := by
      rw [← g.isInvokable_compact, ← hf, f.isInvokable_compact, hother]
    have hdisplay : f.display = g.display := by
      rw [← f.display_compact, hf, g.display_compact]
    have htype : f.typeName = g.typeName := by
      rw [← f.typeName_compact, hf, g.typeName_compact]
    rw [lv.apply_of_not_invokable hother, lv.apply_of_not_invokable hg, hdisplay, htype]
    exact .fail _

/-- One node is evaluated alike in environments that are alike, whatever kind of node it is. -/
theorem node (h : lv.Insensitive) (hhost : lv.host.Discreet) {env env' : Env}
    (henv : env.compact = env'.compact) (e : Expr) :
    Run.Similar Value.compact (lv.evalNode env e) (lv.evalNode env' e) := by
  have hroot : env.rootId = env'.rootId := by
    rw [← env.rootId_compact, henv, env'.rootId_compact]
  cases e with
  | const v => exact .pure rfl
  | quote v => exact .pure rfl
  | define symbol value =>
    refine .bind (h.option henv value) fun v w hvw => ?_
    rw [hroot]
    refine .bind (.define _ _ hvw) fun done done' hdone => ?_
    cases hdone
    cases done with
    | ok _ => exact .pure rfl
    | error e => exact .fail e
  | cond test yes no =>
    refine .bind (h.option henv test) fun t t' ht => ?_
    have htruthy : t.isTruthy = t'.isTruthy := by
      rw [← t.isTruthy_compact, ht, t'.isTruthy_compact]
    rw [htruthy]
    exact h.option henv _
  | block body => exact .foldlM (fun _ _ _ e _ => h env env' e henv) rfl
  | resolve symbol =>
    exact .bind (.lookupM henv symbol) fun found found' hfound => .ofExcept hfound
  | invoke name target args =>
    refine .bind (h env env' target henv) fun f g hfg => ?_
    have hinvokable : f.isInvokable = g.isInvokable := by
      rw [← f.isInvokable_compact, hfg, g.isInvokable_compact]
    have htype : f.typeName = g.typeName := by
      rw [← f.typeName_compact, hfg, g.typeName_compact]
    rw [hinvokable, htype]
    split
    · refine .bind (.mapM fun e _ => h env env' e henv) fun args args' hargs => ?_
      exact h.call hhost hfg hargs
    · exact .fail _
  | vector items exprs =>
    refine .bind (.foldlM (c := List.map Value.compact) (fun items items' hitems p _ => ?_) rfl)
      fun items items' hitems => .pure ?_
    · refine .bind (h env env' p.1 henv) fun v w hvw => .ofExcept ?_
      rw [← refresh_compact, ← refresh_compact, hitems, hvw]
    · rw [Value.compact_vector, Value.compact_vector, hitems]
  | fn name doc isMacro arities =>
    refine .bind .freshId fun id id' hid => ?_
    cases hid
    refine .pure (congrArg Value.fn ?_)
    rw [Closure.compact_eq, Closure.compact_eq]
    simp only [Closure.instantiate, Option.map_some, henv]
  | go body policy =>
    refine .bind (.spawn ?_) fun _ _ _ => .pure rfl
    change Task.mk (env.child goFrame []).compact body lv.context.limit policy =
      ⟨(env'.child goFrame []).compact, body, lv.context.limit, policy⟩
    rw [Env.compact_child, Env.compact_child, henv]

end Insensitive

end Level

/-- Evaluation in environments that are alike, from stores that are alike, ends alike. -/
theorem eval_similar {host : Host} (hhost : host.Discreet) (limit left : Nat) {env env' : Env}
    (henv : env.compact = env'.compact) (e : Expr) :
    Run.Similar Value.compact (eval host limit left env e) (eval host limit left env' e) := by
  induction left generalizing env env' e with
  | zero => exact .fail _
  | succ left ih =>
    rw [eval_succ, eval_succ]
    exact Level.Insensitive.node (fun env env' e henv => ih henv e) hhost henv e

/-! ## Inserted frames -/

/-- The second environment is the first with one more frame somewhere in the chain, which binds
nothing. -/
inductive Env.Inserts (name : String) : Env → Env → Prop where
  | here (env : Env) : Inserts name env (env.child name [])
  | outer {env env' : Env} (frame : String) (vars : Bindings Value) :
    Inserts name env env' → Inserts name (env.child frame vars) (env'.child frame vars)

theorem Env.Inserts.compact_eq {name : String} {env env' : Env} (h : env.Inserts name env') :
    env'.compact = env.compact := by
  induction h with
  | here env => rfl
  | outer frame vars _ ih => rw [compact_child, compact_child, ih]

/-- A frame that binds nothing cannot be seen, if the host treats function values alike that differ
only in the empty frames they have captured (`Host.Discreet`): wherever in the chain it is inserted,
evaluation fails with the same error or ends with the same value, and leaves the same store, up to
such frames. A task runs in such a frame, so with levels enough it ends as its body does in the
environment that started it, for host functions that do not look at the depth either. -/
theorem eval_insertFrame {host : Host} (hhost : host.Discreet) {name : String} {env env' : Env}
    (h : env.Inserts name env') (e : Expr) (limit left : Nat) (s : Store) :
    Run.outline Value.compact ((eval host limit left env' e : Run Value) s) =
      Run.outline Value.compact ((eval host limit left env e : Run Value) s) ∧
    ∀ (policy : SpawnPolicy) (above : Nat) (allowed : String → Bool),
      (∀ name, allowed name = true → host.Blind name) → left ≤ limit →
      CallsOnly allowed host (fun host => eval host limit left env e) s →
      (eval host limit left env e : Run Value).answer s ≠ .error (.depthExceeded limit) →
      ∃ task : Task,
        (eval host limit (above + 1) env (.go e policy) : Run Value) s =
          .ok .nil { s with tasks := task :: s.tasks } ∧
        Run.outline Value.compact
            ((eval host task.limit task.limit task.env task.body : Run Value) s) =
          Run.outline Value.compact ((eval host limit left env e : Run Value) s) := by
  refine ⟨eval_similar hhost limit left h.compact_eq e s s rfl, ?_⟩
  intro policy above allowed hblind hle hcalls hdepth
  refine ⟨⟨env.child Level.goFrame [], e, limit, policy⟩, rfl, ?_⟩
  rw [← eval_of_le hblind hle hcalls hdepth]
  exact eval_similar hhost limit limit (Env.Inserts.here env).compact_eq e s s rfl

/-- Defines a function and calls it: `(do (def inc (fn [x] (+ x 1))) (inc 2))`. -/
def incrementExpr : Expr :=
  let sum : Expr := .invoke "+" (.resolve ⟨none, "+"⟩) [.resolve ⟨none, "x"⟩, .const (.int 1)]
  .block [.define ⟨none, "inc"⟩ (some (.fn none none false [⟨[⟨none, "x"⟩], false, sum⟩])),
    .invoke "inc" (.resolve ⟨none, "inc"⟩) [.const (.int 2)]]

/-- The function that this defines captures the inserted frame, and its value is 3 all the same. -/
theorem eval_insertFrame_increment :
    let s : Store := { roots := [Analyzer.threeGlobals] }
    let env := (Env.root 0).child "f" [("y", .int 0)]
    let env' := ((Env.root 0).child "<do>" []).child "f" [("y", .int 0)]
    ((eval standardHost 9 6 env incrementExpr : Run Value).answer s).toOption.map Value.display =
      some "3" ∧
    Run.outline Value.compact ((eval standardHost 9 6 env' incrementExpr : Run Value) s) =
      Run.outline Value.compact ((eval standardHost 9 6 env incrementExpr : Run Value) s) ∧
    ∃ task : Task,
      (eval standardHost 9 8 env (.go incrementExpr (.report 0)) : Run Value) s =
        .ok .nil { s with tasks := task :: s.tasks } ∧
      Run.outline Value.compact
          ((eval standardHost task.limit task.limit task.env task.body : Run Value) s) =
        Run.outline Value.compact ((eval standardHost 9 6 env incrementExpr : Run Value) s) := by
  intro s env env'
  have hrun : ((eval standardHost 9 6 env incrementExpr : Run Value).answer s).isOk = true := by
    decide +kernel
  have halarm : ((eval (standardHost.only Builtin.isBlind (.eval "alarm")) 9 6 env incrementExpr :
      Run Value).answer s).isOk = true := by decide +kernel
  have hne {r : Except Error Value} (h : r.isOk = true) (e : Error) : r ≠ .error e := by
    rintro rfl
    cases h
  obtain ⟨hinsert, hgo⟩ := eval_insertFrame standardHost_discreet
    (.outer "f" [("y", .int 0)] (.here (.root 0))) incrementExpr 9 6 s
  refine ⟨by decide +kernel, hinsert, hgo (.report 0) 7 Builtin.isBlind standardHost_blind
    (by decide) ⟨.eval "alarm", hne halarm _⟩ (hne hrun _)⟩

/-- A host whose functions answer with the name of the frame that a closure has captured, at every
depth. -/
def frameHost : Host := fun _ _ args =>
  match args with
  | [.fn ⟨_, _, _, _, _, some env⟩] => .done (.ok (.str env.name))
  | _ => .done (.ok .nil)

/-- The call of such a function with a new closure. -/
def capturedName : Expr :=
  .invoke "frame" (.const (.native ⟨0, "frame", some "frame"⟩))
    [.fn none none false [⟨[], false, .const .nil⟩]]

/-- An analyzer in which `(frame)` stands for the name of the frame that it is analyzed in. -/
def frameAnalyzer : Analyzer :=
  Analyzer.standard.withSpecial "frame" (.custom fun _ env _ => .done (.const (.str env.name)))

/-- A host function that does not look at the depth but at the frames of closures sees an inserted
frame, and so does a special form that looks at its environment. -/
theorem insertFrame_seen :
    let env := Env.root 0
    let env' := env.child Level.goFrame []
    let form : Value := .list [.symbol ⟨none, "frame"⟩]
    let s : Store := { roots := [.ofNamespace "user"] }
    env.Inserts Level.goFrame env' ∧ (∀ name, frameHost.Blind name) ∧
    (eval frameHost 9 9 env capturedName : Run Value).answer s = .ok (.str "<root>") ∧
    (eval frameHost 9 9 env' capturedName : Run Value).answer s = .ok (.str "<go>") ∧
    (frameAnalyzer.evalTop standardHost ⟨0, 9⟩ env form : Run Value).answer s =
      .ok (.str "<root>") ∧
    (frameAnalyzer.evalTop standardHost ⟨0, 9⟩ env' form : Run Value).answer s =
      .ok (.str "<go>") ∧
    Run.outline Value.compact ((eval frameHost 9 9 env' capturedName : Run Value) s) ≠
      Run.outline Value.compact ((eval frameHost 9 9 env capturedName : Run Value) s) := by
  intro env env' form s
  have hcall (env : Env) : (eval frameHost 9 9 env capturedName : Run Value) s =
      .ok (.str env.name) { s with nextId := s.nextId + 1 } := by
    change (Level.apply _ (.native _) _ : Run Value) _ = _
    rw [Level.apply_native _ rfl]
    rfl
  refine ⟨.here env, fun _ _ _ _ => rfl, Run.answer_of_ok (hcall env), Run.answer_of_ok (hcall env'),
    ?_, ?_, ?_⟩
  · cbv
  · cbv
  · rw [hcall, hcall]
    intro h
    injection h with hvalue
    injection hvalue with hname
    exact absurd hname (by decide)

end LispCore
