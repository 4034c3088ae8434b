import LispCore.Interpreter

/-!
# Computations that agree

Analysis and evaluation are written for every monad that answers their requests. An `Agreement`
relates the computations of two such monads and is kept by sequencing, so what is built alike from
parts that agree agrees: one node of an expression (`evalNode_agree`), one form
(`analyzeForm_agree`) and one macro expansion (`expandLoop_agree`). Statements about two runs, and
about one run in two monads, start from these three.
-/

namespace LispCore

/-- A relation between computations with the same answers that sequencing keeps. -/
structure Agreement (m₁ m₂ : Type → Type) [MonadStore m₁] [MonadStore m₂] where
  rel : {α : Type} → m₁ α → m₂ α → Prop
  pure {α : Type} (a : α) : rel (pure a) (pure a)
  fail {α : Type} (e : Error) : rel (fail e : m₁ α) (fail e)
  bind {α β : Type} {x : m₁ α} {y : m₂ α} {f : α → m₁ β} {g : α → m₂ β} :
    rel x y → (∀ a, rel (f a) (g a)) → rel (x >>= f) (y >>= g)

variable {m₁ m₂ : Type → Type} [MonadStore m₁] [MonadStore m₂]

namespace Agreement

variable {α β : Type} (R : Agreement m₁ m₂)

/-- Every request but the start of a task is answered alike. -/
def Answers : Prop := ∀ r : Request, (∀ task, r ≠ .spawn task) → R.rel (request r) (request r)

/-- Failing with `e` agrees with everything: what follows such a failure is not compared. -/
def Forgives (e : Error) : Prop := ∀ {α : Type} (y : m₂ α), R.rel (LispCore.fail e) y

variable {R}

theorem ofExcept (r : Except Error α) : R.rel (ofExcept r) (ofExcept r) := by
  cases r with
  | ok a => exact R.pure a
  | error e => exact R.fail e

theorem checked (form : String) (r : Except FormFault α) :
    R.rel (checked form r) (checked form r) := by
  cases r with
  | ok a => exact R.pure a
  | error fault => exact R.fail _

theorem expectCount (form : String) (least most : Nat) (args : List Value) :
    R.rel (expectCount form least most args) (expectCount form least most args) := by
  unfold LispCore.expectCount
  split
  · exact R.pure ()
  · exact R.fail _

theorem mapM {f : β → m₁ α} {g : β → m₂ α} {xs : List β} (h : ∀ x ∈ xs, R.rel (f x) (g x)) :
    R.rel (xs.mapM f) (xs.mapM g) := by
  -- `mapM` collects the results in reverse, so the induction is for every start of the collection
  suffices go : ∀ acc, R.rel (List.mapM.loop f xs acc) (List.mapM.loop g xs acc) from go []
  induction xs with
  | nil => intro acc; exact R.pure _
  | cons x xs ih =>
    intro acc
    have hx := h x List.mem_cons_self
    exact R.bind hx fun a => ih (fun y hy => h y (List.mem_cons_of_mem x hy)) _

theorem foldlM {f : α → β → m₁ α} {g : α → β → m₂ α} {xs : List β}
    (h : ∀ a, ∀ x ∈ xs, R.rel (f a x) (g a x)) (init : α) :
    R.rel (xs.foldlM f init) (xs.foldlM g init) := by
  induction xs generalizing init with
  | nil => exact R.pure init
  | cons x xs ih =>
    have hx := h init x List.mem_cons_self
    exact R.bind hx fun a => ih (fun b y hy => h b y (List.mem_cons_of_mem x hy)) a

theorem lookupM (hR : R.Answers) (env : Env) (symbol : Symbol) :
    R.rel (env.lookupM symbol) (env.lookupM symbol) := by
  have hlookup : R.rel (request (.lookup env.rootId symbol))
      (request (.lookup env.rootId symbol)) := hR _ nofun
  unfold Env.lookupM
  cases symbol.space with
  | none =>
    cases env.find? symbol.base with
    | none => exact hlookup
    | some v => exact R.pure _
  | some ns => exact hlookup

/-- What a host function does agrees if its calls do. -/
theorem follow {args : List Value}
    {call₁ : (f : Value) → (xs : List Value) → f.callSize xs ≤ sizeOf args → m₁ Value}
    {call₂ : (f : Value) → (xs : List Value) → f.callSize xs ≤ sizeOf args → m₂ Value}
    (h : ∀ f xs bounded, R.rel (call₁ f xs bounded) (call₂ f xs bounded)) (reply : Reply args) :
    R.rel (reply.follow call₁) (reply.follow call₂) := by
  induction reply with
  | done r => exact ofExcept r
  | call f xs bounded next ih => exact R.bind (h f xs bounded) ih

end Agreement

/-! ## Evaluation of one node -/

namespace Level

/-- Two levels at which subexpressions, calls and the start of tasks agree. -/
structure Agree (R : Agreement m₁ m₂) (lv₁ : Level m₁) (lv₂ : Level m₂) : Prop where
  eval (env : Env) (e : Expr) : R.rel (lv₁.eval env e) (lv₂.eval env e)
  apply (f : Value) (args : List Value) : R.rel (lv₁.apply f args) (lv₂.apply f args)
  spawn (env : Env) (body : Expr) (policy : SpawnPolicy) :
    R.rel (request (.spawn ⟨env, body, lv₁.context.limit, policy⟩))
      (request (.spawn ⟨env, body, lv₂.context.limit, policy⟩))

variable {R : Agreement m₁ m₂} {lv₁ : Level m₁} {lv₂ : Level m₂}

theorem applyClosure_agree (heval : ∀ env e, R.rel (lv₁.eval env e) (lv₂.eval env e))
    (f : Closure) (args : List Value) :
    R.rel (lv₁.applyClosure f args) (lv₂.applyClosure f args) := by
  unfold applyClosure
  cases f.enter args with
  | ok entered => exact heval _ _
  | error e => exact R.fail e

/-- A call agrees if what the host does is the same, or is a forgiven failure. -/
theorem apply_agree (heval : ∀ env e, R.rel (lv₁.eval env e) (lv₂.eval env e))
    (hhost : ∀ name args, lv₁.host name lv₁.context args = lv₂.host name lv₂.context args ∨
      ∃ e, lv₁.host name lv₁.context args = .done (.error e) ∧ R.Forgives e)
    (f : Value) (args : List Value) : R.rel (lv₁.apply f args) (lv₂.apply f args) := by
  induction f, args using apply_induction with
  | fn f args =>
    rw [apply_fn, apply_fn]
    exact applyClosure_agree heval f args
  | native f name args hname ih =>
    rw [lv₁.apply_native hname, lv₂.apply_native hname]
    rcases hhost name args with hreply | ⟨e, hreply, he⟩
    · rw [hreply]
      exact Agreement.follow ih _
    · rw [hreply]
      exact he _
  | uncallable f args hname =>
    rw [lv₁.apply_uncallable hname, lv₂.apply_uncallable hname]
    exact R.fail _
  | other f args hf =>
    rw [lv₁.apply_of_not_invokable hf, lv₂.apply_of_not_invokable hf]
    exact R.fail _

theorem evalOption_agree (h : Agree R lv₁ lv₂) (env : Env) (e : Option Expr) :
    R.rel (lv₁.evalOption env e) (lv₂.evalOption env e) := by
  cases e with
  | none => exact R.pure _
  | some e => exact h.eval env e

/-- One node agrees if everything one level deeper does. -/
theorem evalNode_agree (hR : R.Answers) (h : Agree R lv₁ lv₂) (env : Env) (e : Expr) :
    R.rel (lv₁.evalNode env e) (lv₂.evalNode env e) := by
  cases e with
  | const v => exact R.pure v
  | quote v => exact R.pure v
  | define symbol value =>
    refine R.bind (evalOption_agree h env value) fun v => R.bind (hR _ nofun) fun done => ?_
    cases done with
    | ok _ => exact R.pure _
    | error e => exact R.fail e
  | cond test yes no =>
    exact R.bind (evalOption_agree h env test) fun t => evalOption_agree h env _
  | block body => exact Agreement.foldlM (fun _ e _ => h.eval env e) _
  | resolve symbol =>
    exact R.bind (Agreement.lookupM hR env symbol) fun found => Agreement.ofExcept found
  | invoke name target args =>
    refine R.bind (h.eval env target) fun f => ?_
    split
    · exact R.bind (Agreement.mapM fun e _ => h.eval env e) fun args => h.apply f args
    · exact R.fail _
  | vector items exprs =>
    refine R.bind (Agreement.foldlM (fun items p _ => ?_) items) fun items => R.pure _
    exact R.bind (h.eval env p.1) fun v => Agreement.ofExcept _
  | fn name doc isMacro arities => exact R.bind (hR _ nofun) fun id => R.pure _
  | go body policy => exact R.bind (h.spawn _ body policy) fun _ => R.pure _

/-! ## Macro expansion -/

theorem macroOf_agree (hR : R.Answers) (env : Env) (form : Value) :
    R.rel (macroOf env form) (macroOf env form) := by
  unfold macroOf
  split
  · refine R.bind (Agreement.lookupM hR env _) fun found => ?_
    split
    · exact R.pure _
    · exact R.pure _
  · exact R.pure _

theorem expandOnce_agree (hR : R.Answers)
    (heval : ∀ env e, R.rel (lv₁.eval env e) (lv₂.eval env e)) (env : Env) (form : Value) :
    R.rel (lv₁.expandOnce env form) (lv₂.expandOnce env form) := by
  refine R.bind (macroOf_agree hR env form) fun found => ?_
  cases found with
  | none => exact R.pure _
  | some call =>
    exact R.bind (applyClosure_agree heval call.1 call.2) fun form => R.pure _

/-- Expansion agrees under two bounds if they are the same or the first may be forgiven. -/
theorem expandLoop_agree {max₁ max₂ : Nat} {env₁ env₂ : Env} {source : Value}
    (honce : ∀ form, R.rel (lv₁.expandOnce env₁ form) (lv₂.expandOnce env₂ form))
    {left₁ left₂ : Nat} (hle : left₁ ≤ left₂)
    (h : left₁ = left₂ ∧ max₁ = max₂ ∨ R.Forgives (.expansionLimit source.display max₁))
    (form : Value) :
    R.rel (lv₁.expandLoop max₁ env₁ source left₁ form)
      (lv₂.expandLoop max₂ env₂ source left₂ form) := by
  induction left₁ generalizing left₂ form with
  | zero =>
    unfold expandLoop
    refine R.bind (honce form) fun next => ?_
    cases next with
    | none => exact R.pure form
    | some next =>
      rcases h with ⟨rfl, rfl⟩ | h
      · exact R.fail _
      · exact h _
  | succ left₁ ih =>
    obtain ⟨left₂, rfl⟩ : ∃ k, left₂ = k + 1 := ⟨left₂ - 1, by omega⟩
    unfold expandLoop
    refine R.bind (honce form) fun next => ?_
    cases next with
    | none => exact R.pure form
    | some next =>
      refine ih (by omega) ?_ next
      exact h.imp_left fun ⟨hl, hm⟩ => ⟨by omega, hm⟩

end Level

/-! ## Analysis of one form -/

/-- Inner forms are analyzed alike in environments related by `E`, and the frames in which bodies
are analyzed keep environments related. -/
structure InnerAgree (R : Agreement m₁ m₂) (E : Env → Env → Prop)
    (deeper₁ : Env → Value → m₁ Expr) (deeper₂ : Env → Value → m₂ Expr) : Prop where
  analyze {env₁ env₂ : Env} (h : E env₁ env₂) (form : Value) :
    R.rel (deeper₁ env₁ form) (deeper₂ env₂ form)
  shadow {env₁ env₂ : Env} (h : E env₁ env₂) (name : Option Symbol) (params : List Symbol) :
    E (shadowFrame env₁ name params) (shadowFrame env₂ name params)

/-- A special form that does the same in related environments. -/
def SpecialForm.Respects (E : Env → Env → Prop) : SpecialForm → Prop
  | custom parse => ∀ {env₁ env₂ : Env}, E env₁ env₂ → ∀ policy args,
    parse policy env₁ args = parse policy env₂ args
  | _ => True

theorem SpecialForm.respects_eq (form : SpecialForm) : form.Respects Eq := by
  cases form with
  | custom parse => intro env₁ env₂ h policy args; rw [h]
  | _ => trivial

namespace InnerAgree

variable {R : Agreement m₁ m₂} {E : Env → Env → Prop} {deeper₁ : Env → Value → m₁ Expr}
  {deeper₂ : Env → Value → m₂ Expr} {env₁ env₂ : Env}

theorem of_eq (h : ∀ env form, R.rel (deeper₁ env form) (deeper₂ env form)) :
    InnerAgree R Eq deeper₁ deeper₂ where
  analyze henv form := by subst henv; exact h _ form
  shadow henv _ _ := by rw [henv]

theorem body (h : InnerAgree R E deeper₁ deeper₂) (henv : E env₁ env₂) (forms : List Value) :
    R.rel (forms.mapM (deeper₁ env₁)) (forms.mapM (deeper₂ env₂)) :=
  Agreement.mapM fun form _ => h.analyze henv form

theorem clause (h : InnerAgree R E deeper₁ deeper₂) (henv : E env₁ env₂) (form : String)
    (name : Option Symbol) (clause : Value) :
    R.rel (analyzeClause deeper₁ form env₁ name clause)
      (analyzeClause deeper₂ form env₂ name clause) := by
  refine R.bind (Agreement.checked form _) fun parts =>
    R.bind (Agreement.checked form _) fun (params, variadic) => ?_
  exact R.bind (h.body (h.shadow henv name params) parts.body) fun exprs => R.pure _

theorem fn (h : InnerAgree R E deeper₁ deeper₂) (henv : E env₁ env₂) (form : String)
    (isMacro : Bool) (args : List Value) :
    R.rel (analyzeFn deeper₁ form isMacro env₁ args)
      (analyzeFn deeper₂ form isMacro env₂ args) := by
  refine R.bind (Agreement.checked form _) fun f => ?_
  exact R.bind (Agreement.mapM fun c _ => h.clause henv form f.name c) fun arities => R.pure _

theorem shadows (h : InnerAgree R E deeper₁ deeper₂) (henv : E env₁ env₂)
    (shadows : List (Option Symbol × List Symbol)) :
    E (shadowFrames env₁ shadows) (shadowFrames env₂ shadows) := by
  induction shadows generalizing env₁ env₂ with
  | nil => exact henv
  | cons shadow shadows ih => exact ih (h.shadow henv shadow.1 shadow.2)

theorem parsing (h : InnerAgree R E deeper₁ deeper₂) (henv : E env₁ env₂) (p : Parsing) :
    R.rel (p.run deeper₁ env₁) (p.run deeper₂ env₂) := by
  induction p with
  | done e => exact R.pure e
  | failed e => exact R.fail e
  | analyze shadows form next ih => exact R.bind (h.analyze (h.shadows henv shadows) form) ih

theorem special (h : InnerAgree R E deeper₁ deeper₂) (henv : E env₁ env₂) {form : SpecialForm}
    (hform : form.Respects E) (policy : SpawnPolicy) (args : List Value) :
    R.rel (form.analyze deeper₁ policy env₁ args) (form.analyze deeper₂ policy env₂ args) := by
  cases form with
  | block => exact R.bind (h.body henv args) fun exprs => R.pure _
  | cond =>
    refine R.bind (Agreement.expectCount "if" 2 3 args) fun _ => ?_
    exact R.bind (h.body henv args) fun exprs => R.pure _
  | define =>
    refine R.bind (Agreement.expectCount "def" 1 2 args) fun _ => ?_
    split
    · exact R.bind (h.body henv _) fun exprs => R.pure _
    · exact R.fail _
    · exact R.fail _
  | function => exact h.fn henv "fn" false args
  | expander => exact h.fn henv "macro" true args
  | quote => exact R.bind (Agreement.expectCount "quote" 1 1 args) fun _ => R.pure _
  | go =>
    refine R.bind (Agreement.expectCount "go" 1 1 args) fun _ => ?_
    exact R.bind (h.analyze henv _) fun body => R.pure _
  | custom parse =>
    simp only [SpecialForm.analyze]
    rw [hform henv policy args]
    exact h.parsing henv _

end InnerAgree

/-- One form agrees if its expansion and the analysis of the forms inside it do. -/
theorem Analyzer.analyzeForm_agree {R : Agreement m₁ m₂} {E : Env → Env → Prop}
    {a₁ a₂ : Analyzer} (hspecials : a₁.specials = a₂.specials)
    (hpolicy : a₁.spawnPolicy = a₂.spawnPolicy)
    (hrespects : ∀ name form, a₁.specials.find? name = some form → form.Respects E)
    {expand₁ : Env → Value → m₁ Value} {expand₂ : Env → Value → m₂ Value}
    {deeper₁ : Env → Value → m₁ Expr} {deeper₂ : Env → Value → m₂ Expr} {env₁ env₂ : Env}
    {form : Value} (hexpand : R.rel (expand₁ env₁ form) (expand₂ env₂ form))
    (hinner : InnerAgree R E deeper₁ deeper₂) (henv : E env₁ env₂) :
    R.rel (a₁.analyzeForm expand₁ deeper₁ env₁ form)
      (a₂.analyzeForm expand₂ deeper₂ env₂ form) := by
  have hspecial (head : Value) : a₂.special? head = a₁.special? head := by
    unfold special?
    rw [hspecials]
  unfold analyzeForm
  split
  · exact R.pure _
  refine R.bind hexpand fun expanded => ?_
  split
  · exact R.pure _
  · next head args =>
    rw [hspecial head, ← hpolicy]
    cases hs : a₁.special? head with
    | some special =>
      obtain ⟨name, hname⟩ := exists_name_of_special? hs
      exact hinner.special henv (hrespects name special hname) _ args
    | none =>
      refine R.bind (hinner.analyze henv head) fun target => ?_
      exact R.bind (hinner.body henv args) fun args => R.pure _
  · exact R.bind (hinner.body henv _) fun exprs => R.pure _
  · exact R.pure _

/-! ## What a run leaves -/

namespace Run

variable {α β : Type}

/-- The value of a run, or its error. -/
def answer (run : Run α) (s : Store) : Except Error α :=
  match run s with
  | .ok a _ => .ok a
  | .error e _ => .error e

/-- The store at the end of a run, also of one that fails. -/
def final (run : Run α) (s : Store) : Store :=
  match run s with
  | .ok _ s' => s'
  | .error _ s' => s'

theorem answer_of_ok {x : Run α} {s s' : Store} {a : α} (h : x s = .ok a s') :
    x.answer s = .ok a := by
  unfold answer; rw [h]

theorem answer_of_error {x : Run α} {s s' : Store} {e : Error} (h : x s = .error e s') :
    x.answer s = .error e := by
  unfold answer; rw [h]

theorem answer_congr {x y : Run α} {s s' : Store} (h : x s = y s') :
    x.answer s = y.answer s' := by
  unfold answer; rw [h]

theorem final_congr {x y : Run α} {s s' : Store} (h : x s = y s') : x.final s = y.final s' := by
  unfold final; rw [h]

theorem final_of_ok {x : Run α} {s s' : Store} {a : α} (h : x s = .ok a s') : x.final s = s' := by
  unfold final; rw [h]

theorem eq_ok {x : Run α} {s s' : Store} {a : α} (ha : x.answer s = .ok a)
    (hs : x.final s = s') : x s = .ok a s' := by
  unfold answer at ha
  unfold final at hs
  cases h : x s with
  | ok b t => rw [h] at ha hs; cases ha; cases hs; rfl
  | error e t => rw [h] at ha; cases ha

theorem eq_error {x : Run α} {s s' : Store} {e : Error} (he : x.answer s = .error e)
    (hs : x.final s = s') : x s = .error e s' := by
  unfold answer at he
  unfold final at hs
  cases h : x s with
  | ok b t => rw [h] at he; cases he
  | error e t => rw [h] at he hs; cases he; cases hs; rfl

theorem bind_of_ok {x : Run α} {f : α → Run β} {s s' : Store} {a : α} (h : x s = .ok a s') :
    (x >>= f) s = f a s' := by
  change EStateM.bind x f s = _
  unfold EStateM.bind; rw [h]

theorem bind_of_error {x : Run α} {f : α → Run β} {s s' : Store} {e : Error}
    (h : x s = .error e s') : (x >>= f) s = .error e s' := by
  change EStateM.bind x f s = _
  unfold EStateM.bind; rw [h]

theorem answer_bind_of_error {x : Run α} (f : α → Run β) {s : Store} {e : Error}
    (h : x.answer s = .error e) : (x >>= f).answer s = .error e :=
  answer_of_error (bind_of_error (eq_error h rfl))

end Run

end LispCore
