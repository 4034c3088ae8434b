import LispCore.Proofs.Agreement

/-!
# Analysis where no macro is bound

Analysis reaches the environment only to find macros. Where none is bound it is a function of the
form, the analyzer and the levels left: two environments over two stores give the same expression or
the same error, and both stores stay as they are (`standstill`). So a form that is malformed
anywhere inside (`Analyzer.Malformed`) fails before any part of it is evaluated.
-/

namespace LispCore

/-! ## Environments without macros -/

def Value.isMacro : Value → Bool
  | .fn f => f.isMacro
  | _ => false

def Bindings.MacroFree (b : Bindings Value) : Prop :=
  ∀ name v, b.find? name = some v → v.isMacro = false

/-- No namespace binds a macro. -/
def Globals.MacroFree (g : Globals) : Prop :=
  ∀ ns table, g.tables.find? ns = some table → Bindings.MacroFree table

/-- No frame and no namespace binds a macro. -/
def Env.MacroFree (g : Globals) : Env → Prop
  | .root _ => g.MacroFree
  | .frame _ vars parent => Bindings.MacroFree vars ∧ parent.MacroFree g

theorem Globals.macroFree_of_all {g : Globals}
    (h : ∀ p ∈ g.tables, ∀ q ∈ p.2, q.2.isMacro = false) : g.MacroFree :=
  fun _ _ htable _ _ hv => h _ (Bindings.mem_of_find? htable) _ (Bindings.mem_of_find? hv)

theorem Globals.MacroFree.lookup {g : Globals} (h : g.MacroFree) {symbol : Symbol} {v : Value}
    (hv : g.lookup symbol = .ok v) : v.isMacro = false := by
  unfold Globals.lookup at hv
  split at hv
  · unfold resolveQualified at hv
    split at hv
    · cases hv
    · next table htable =>
      split at hv
      · cases hv
      · next hfind => cases hv; exact h _ table htable _ v hfind
  · split at hv
    · next hfind =>
      cases hv
      obtain ⟨table, htable, hfind⟩ := Option.bind_eq_some_iff.1 hfind
      exact h _ table htable _ v hfind
    · cases hv

namespace Env.MacroFree

variable {g : Globals} {env : Env}

theorem globals (h : env.MacroFree g) : g.MacroFree := by
  induction env using Env.chain_induction with
  | root id => exact h
  | frame name vars parent ih => exact ih h.2

theorem find? (h : env.MacroFree g) {name : String} {v : Value} (hv : env.find? name = some v) :
    v.isMacro = false := by
  induction env using Env.chain_induction with
  | root id => cases hv
  | frame _ vars parent ih =>
    unfold Env.find? at hv
    split at hv
    · next hfind => cases hv; exact h.1 name v hfind
    · exact ih h.2 hv

theorem lookup (h : env.MacroFree g) {symbol : Symbol} {v : Value}
    (hv : env.lookup g symbol = .ok v) : v.isMacro = false := by
  unfold Env.lookup at hv
  split at hv
  · next hfind => cases hv; exact h.find? hfind
  · exact h.globals.lookup hv

/-- Bodies are analyzed in frames that bind every name to nil. -/
theorem shadow (h : env.MacroFree g) (name : Option Symbol) (params : List Symbol) :
    (shadowFrame env name params).MacroFree g := by
  refine ⟨fun k v hv => ?_, h⟩
  have hmem := Bindings.mem_of_find?_ofPairs hv
  obtain ⟨n, -, hpair⟩ := List.mem_map.1 hmem
  cases hpair
  rfl

end Env.MacroFree

/-! ## Runs that change nothing -/

/-- Two runs that give the same answer and leave the two stores as they are. -/
def standstill (s₁ s₂ : Store) : Agreement Run Run where
  rel x y := x.answer s₁ = y.answer s₂ ∧ x.final s₁ = s₁ ∧ y.final s₂ = s₂
  pure _ := ⟨rfl, rfl, rfl⟩
  fail _ := ⟨rfl, rfl, rfl⟩
  bind {_ _ x y f g} hx hf := by
    obtain ⟨hanswer, hx, hy⟩ := hx
    cases h : x.answer s₁ with
    | ok a =>
      have hbx := Run.bind_of_ok (f := f) (Run.eq_ok h hx)
      have hby := Run.bind_of_ok (f := g) (Run.eq_ok (hanswer ▸ h) hy)
      rw [Run.answer_congr hbx, Run.answer_congr hby, Run.final_congr hbx, Run.final_congr hby]
      exact hf a
    | error e =>
      have hbx := Run.bind_of_error (f := f) (Run.eq_error h hx)
      have hby := Run.bind_of_error (f := g) (Run.eq_error (hanswer ▸ h) hy)
      simp only [Run.answer, Run.final, hbx, hby, and_self]

/-- The environment binds no macro, nor do the globals that it reaches in the store. -/
def Env.MacroFreeIn (s : Store) (env : Env) : Prop := env.MacroFree (s.globals env.rootId)

theorem Env.MacroFreeIn.shadow {s : Store} {env : Env} (h : env.MacroFreeIn s)
    (name : Option Symbol) (params : List Symbol) : (shadowFrame env name params).MacroFreeIn s :=
  MacroFree.shadow h name params

namespace Level

/-- A head that does not stand for a macro where the form is calls none. -/
theorem macroOf_of_lookup {s : Store} {env : Env} {head : Symbol}
    (h : ∀ v, env.lookup (s.globals env.rootId) head = .ok v → v.isMacro = false)
    (args : List Value) :
    (macroOf env (.list (.symbol head :: args)) : Run _) s = .ok none s := by
  refine (Run.bind_of_ok (Env.lookupM_eq env head s)).trans ?_
  cases hfind : env.lookup (s.globals env.rootId) head with
  | error e => rfl
  | ok v =>
    cases v with
    | fn f =>
      have hplain : f.isMacro = false := h _ hfind
      change EStateM.Result.ok (if f.isMacro = true then some (f, args) else none) s = _
      rw [hplain]
      rfl
    | _ => rfl

theorem macroOf_macroFree {s : Store} {env : Env} (h : env.MacroFreeIn s) (form : Value) :
    (macroOf env form : Run _) s = .ok none s := by
  unfold macroOf
  split
  · exact macroOf_of_lookup (fun _ hv => Env.MacroFree.lookup h hv) _
  · rfl

/-- A form that calls no macro is its own expansion. -/
theorem expand_of_macroOf (lv : Level Run) (max : Nat) {s : Store} {env : Env} {form : Value}
    (h : (macroOf env form : Run _) s = .ok none s) : lv.expand max env form s = .ok form s := by
  have honce : lv.expandOnce env form s = .ok none s := by
    unfold expandOnce
    rw [Run.bind_of_ok h]
    rfl
  unfold expand expandLoop
  rw [Run.bind_of_ok honce]
  rfl

theorem expand_macroFree (lv : Level Run) (max : Nat) {s : Store} {env : Env}
    (h : env.MacroFreeIn s) (form : Value) : lv.expand max env form s = .ok form s :=
  lv.expand_of_macroOf max (macroOf_macroFree h form)

end Level

namespace Analyzer

/-- Every special form of the analyzer is one of the usual ones, under whatever name. -/
def IsUsual (a : Analyzer) : Prop :=
  ∀ name form, a.specials.find? name = some form → form ∈ builtins.map (·.2)

theorem standard_isUsual : standard.IsUsual := fun _ _ h =>
  List.mem_map_of_mem (f := Prod.snd) (Bindings.mem_of_find?_ofPairs h)

theorem IsUsual.ne_custom {a : Analyzer} (h : a.IsUsual) {head : Value} {form : SpecialForm}
    (hspecial : a.special? head = some form)
    (parse : SpawnPolicy → Env → List Value → Parsing) : form ≠ .custom parse := by
  rintro rfl
  obtain ⟨name, hname⟩ := exists_name_of_special? hspecial
  have hmem := h name _ hname
  simp [builtins] at hmem

theorem IsUsual.respects {a : Analyzer} (h : a.IsUsual) {E : Env → Env → Prop} (name : String)
    (form : SpecialForm) (hform : a.specials.find? name = some form) : form.Respects E := by
  have hmem := h name form hform
  simp only [builtins, List.map_cons, List.map_nil, List.mem_cons, List.not_mem_nil, or_false]
    at hmem
  rcases hmem with rfl | rfl | rfl | rfl | rfl | rfl | rfl <;> trivial

/-- Where no macro is bound, analysis of a form is the same in related environments if that of the
special forms is. -/
theorem analyze_standstill {a : Analyzer} {s₁ s₂ : Store} {E : Env → Env → Prop}
    (hfree : ∀ {env₁ env₂ : Env}, E env₁ env₂ → env₁.MacroFreeIn s₁ ∧ env₂.MacroFreeIn s₂)
    (hshadow : ∀ {env₁ env₂ : Env}, E env₁ env₂ → ∀ name params,
      E (shadowFrame env₁ name params) (shadowFrame env₂ name params))
    (hrespects : ∀ name form, a.specials.find? name = some form → form.Respects E)
    (host₁ host₂ : Host) (limit left : Nat) {env₁ env₂ : Env} (henv : E env₁ env₂)
    (form : Value) :
    (standstill s₁ s₂).rel (a.analyze host₁ limit left env₁ form)
      (a.analyze host₂ limit left env₂ form) := by
  induction left generalizing env₁ env₂ form with
  | zero => exact (standstill s₁ s₂).fail _
  | succ left ih =>
    have hinner : InnerAgree (standstill s₁ s₂) E (a.analyze host₁ limit left)
        (a.analyze host₂ limit left) := ⟨fun h form => ih h form, hshadow⟩
    refine analyzeForm_agree rfl rfl hrespects ?_ hinner henv
    simp only [standstill, Run.answer, Run.final, Level.expand_macroFree _ _ (hfree henv).1,
      Level.expand_macroFree _ _ (hfree henv).2, and_self]

/-- The usual special forms are the same in every environment. -/
theorem inner_standstill {a : Analyzer} (ha : a.IsUsual) (host₁ host₂ : Host) (limit left : Nat)
    (s₁ s₂ : Store) :
    InnerAgree (standstill s₁ s₂) (fun env₁ env₂ => env₁.MacroFreeIn s₁ ∧ env₂.MacroFreeIn s₂)
      (a.analyze host₁ limit left) (a.analyze host₂ limit left) := by
  have hshadow {env₁ env₂ : Env} (h : env₁.MacroFreeIn s₁ ∧ env₂.MacroFreeIn s₂)
      (name : Option Symbol) (params : List Symbol) :
      (shadowFrame env₁ name params).MacroFreeIn s₁ ∧
        (shadowFrame env₂ name params).MacroFreeIn s₂ :=
    ⟨h.1.shadow name params, h.2.shadow name params⟩
  refine ⟨fun h form => ?_, hshadow⟩
  exact analyze_standstill (fun h => h) hshadow ha.respects host₁ host₂ limit left h form

/-- Any special form is the same in one environment over two stores. -/
theorem analyze_standstill_same (a : Analyzer) (host₁ host₂ : Host) (limit left : Nat)
    {s₁ s₂ : Store} {env : Env} (h₁ : env.MacroFreeIn s₁) (h₂ : env.MacroFreeIn s₂)
    (form : Value) :
    (standstill s₁ s₂).rel (a.analyze host₁ limit left env form)
      (a.analyze host₂ limit left env form) := by
  let E (env₁ env₂ : Env) : Prop := env₁ = env₂ ∧ env₁.MacroFreeIn s₁ ∧ env₂.MacroFreeIn s₂
  have hshadow {env₁ env₂ : Env} (h : E env₁ env₂) (name : Option Symbol)
      (params : List Symbol) : E (shadowFrame env₁ name params) (shadowFrame env₂ name params) :=
    ⟨by rw [h.1], h.2.1.shadow name params, h.2.2.shadow name params⟩
  have hrespects (form : SpecialForm) : form.Respects E := by
    cases form with
    | custom parse => intro env₁ env₂ h policy args; rw [h.1]
    | _ => trivial
  exact analyze_standstill (E := E) (fun h => h.2) hshadow (fun _ form _ => hrespects form)
    host₁ host₂ limit left ⟨rfl, h₁, h₂⟩ form

end Analyzer

/-! ## Malformed forms -/

/-- A clause that is none, or whose parameter vector is wrong. -/
def Clause.Faulty (form : Value) : Prop :=
  ∀ c, Clause.ofForm form = .ok c → ∃ fault, Params.parse c.params = .error fault

/-- The forms of the body of a clause. -/
def Clause.bodyOf (form : Value) : List Value :=
  match Clause.ofForm form with
  | .ok c => c.body
  | .error _ => []

/-- A function definition without parameters or with a faulty clause. -/
def FnForm.Faulty (args : List Value) : Prop :=
  ∀ f, FnForm.parse args = .ok f → ∃ c ∈ f.clauses, Clause.Faulty c

/-- The forms of all bodies of a function definition. -/
def FnForm.bodies (args : List Value) : List Value :=
  match FnForm.parse args with
  | .ok f => f.clauses.flatMap Clause.bodyOf
  | .error _ => []

namespace SpecialForm

/-- The arguments do not have the shape that a usual form asks for. -/
def Misused (args : List Value) : SpecialForm → Prop
  | block => False
  | cond => ¬ (2 ≤ args.length ∧ args.length ≤ 3)
  | define => ¬ (1 ≤ args.length ∧ args.length ≤ 2) ∨ ∀ s, args.head? ≠ some (.symbol s)
  | function => FnForm.Faulty args
  | expander => FnForm.Faulty args
  | quote => args.length ≠ 1
  | go => args.length ≠ 1
  | custom _ => False

/-- The forms among the arguments that a usual form analyzes in turn. -/
def parts (args : List Value) : SpecialForm → List Value
  | block => args
  | cond => args
  | define => args.tail
  | function => FnForm.bodies args
  | expander => FnForm.bodies args
  | quote => []
  | go => args
  | custom _ => []

end SpecialForm

/-- A special form is misused, in the form itself or in a form inside it that is analyzed. -/
inductive Analyzer.Malformed (a : Analyzer) : Value → Prop where
  | misused {head : Value} {args : List Value} {form : SpecialForm}
      (hspecial : a.special? head = some form) (h : form.Misused args) :
    Malformed a (.list (head :: args))
  | inSpecial {head : Value} {args : List Value} {form : SpecialForm} {part : Value}
      (hspecial : a.special? head = some form) (hpart : part ∈ form.parts args)
      (h : Malformed a part) : Malformed a (.list (head :: args))
  | inCall {head : Value} {args : List Value} {part : Value} (hspecial : a.special? head = none)
      (hpart : part ∈ head :: args) (h : Malformed a part) : Malformed a (.list (head :: args))
  | inVector {items : List Value} {part : Value} (hpart : part ∈ items) (h : Malformed a part) :
    Malformed a (.vector items)

namespace Run

variable {α β : Type} {s : Store}

/-- The run fails and leaves the store as it is. -/
def FailsAt (x : Run α) (s : Store) : Prop := ∃ e, x s = .error e s

theorem FailsAt.bind {x : Run α} (h : x.FailsAt s) (f : α → Run β) : (x >>= f).FailsAt s := by
  obtain ⟨e, he⟩ := h
  exact ⟨e, bind_of_error he⟩

theorem failsAt_bind {x : Run α} {f : α → Run β} (hx : x.final s = s)
    (hf : ∀ a, (f a).FailsAt s) : (x >>= f).FailsAt s := by
  cases h : x.answer s with
  | ok a =>
    obtain ⟨e, he⟩ := hf a
    exact ⟨e, (bind_of_ok (eq_ok h hx)).trans he⟩
  | error e => exact FailsAt.bind ⟨e, eq_error h hx⟩ f

theorem failsAt_mapM {f : β → Run α} {xs : List β} (hfinal : ∀ x ∈ xs, (f x).final s = s) {x : β}
    (hx : x ∈ xs) (hfail : (f x).FailsAt s) : (xs.mapM f).FailsAt s := by
  suffices go : ∀ acc, (List.mapM.loop f xs acc).FailsAt s from go []
  induction xs with
  | nil => cases hx
  | cons y ys ih =>
    intro acc
    rcases List.mem_cons.1 hx with rfl | hx
    · exact hfail.bind _
    · refine failsAt_bind (hfinal y List.mem_cons_self) fun a => ?_
      exact ih (fun z hz => hfinal z (List.mem_cons_of_mem y hz)) hx _

theorem final_expectCount (form : String) (least most : Nat) (args : List Value) :
    (expectCount form least most args : Run Unit).final s = s := by
  unfold expectCount
  split
  · rfl
  · rfl

theorem failsAt_expectCount {form : String} {least most : Nat} {args : List Value}
    (h : ¬ (least ≤ args.length ∧ args.length ≤ most)) :
    (expectCount form least most args : Run Unit).FailsAt s := by
  unfold expectCount
  rw [if_neg (by simpa using h)]
  exact ⟨_, rfl⟩

theorem final_checked (form : String) (r : Except FormFault α) :
    (checked form r : Run α).final s = s := by
  cases r with
  | ok a => rfl
  | error fault => rfl

end Run

/-- Inner forms are analyzed without a change to the store wherever no macro is bound. -/
abbrev StandsStill (s : Store) (deeper : Env → Value → Run Expr) : Prop :=
  InnerAgree (standstill s s) (fun env₁ env₂ => env₁.MacroFreeIn s ∧ env₂.MacroFreeIn s)
    deeper deeper

section

variable {s : Store} {deeper : Env → Value → Run Expr} {env : Env}

theorem failsAt_body (h : StandsStill s deeper)
    (henv : env.MacroFreeIn s) {forms : List Value} {part : Value} (hpart : part ∈ forms)
    (hfail : (deeper env part).FailsAt s) : (forms.mapM (deeper env)).FailsAt s :=
  Run.failsAt_mapM (fun form _ => (h.analyze ⟨henv, henv⟩ form).2.1) hpart hfail

theorem failsAt_clause_of_faulty {form : String} {name : Option Symbol} {clause : Value}
    (hfaulty : Clause.Faulty clause) : (analyzeClause deeper form env name clause).FailsAt s := by
  unfold analyzeClause
  cases hclause : Clause.ofForm clause with
  | error fault => exact Run.FailsAt.bind ⟨_, rfl⟩ _
  | ok c =>
    obtain ⟨fault, hparams⟩ := hfaulty c hclause
    simp only [checked, pure_bind, hparams]
    exact Run.FailsAt.bind ⟨_, rfl⟩ _

theorem failsAt_clause_of_body (h : StandsStill s deeper)
    (henv : env.MacroFreeIn s) {form : String} {name : Option Symbol} {clause part : Value}
    (hpart : part ∈ Clause.bodyOf clause)
    (hfail : ∀ env, env.MacroFreeIn s → (deeper env part).FailsAt s) :
    (analyzeClause deeper form env name clause).FailsAt s := by
  unfold Clause.bodyOf at hpart
  unfold analyzeClause
  cases hclause : Clause.ofForm clause with
  | error fault => rw [hclause] at hpart; cases hpart
  | ok c =>
    rw [hclause] at hpart
    simp only [checked, pure_bind]
    refine Run.failsAt_bind (Run.final_checked form _) fun (params, variadic) => ?_
    have hshadow := henv.shadow name params
    exact (failsAt_body h hshadow hpart (hfail _ hshadow)).bind _

/-- A function definition fails if it is faulty or one of its bodies fails. -/
theorem failsAt_fn (h : StandsStill s deeper)
    (henv : env.MacroFreeIn s) {form : String} {isMacro : Bool} {args : List Value}
    (hfail : FnForm.Faulty args ∨ ∃ part ∈ FnForm.bodies args,
      ∀ env, env.MacroFreeIn s → (deeper env part).FailsAt s) :
    (analyzeFn deeper form isMacro env args).FailsAt s := by
  unfold FnForm.Faulty FnForm.bodies at hfail
  unfold analyzeFn
  cases hparse : FnForm.parse args with
  | error fault => exact Run.FailsAt.bind ⟨_, rfl⟩ _
  | ok f =>
    rw [hparse] at hfail
    simp only [checked, pure_bind]
    refine Run.FailsAt.bind ?_ _
    have hfinal (c : Value) (_ : c ∈ f.clauses) :
        (analyzeClause deeper form env f.name c).final s = s :=
      (h.clause ⟨henv, henv⟩ form f.name c).2.1
    rcases hfail with hfaulty | ⟨part, hpart, hfail⟩
    · obtain ⟨c, hc, hfaulty⟩ := hfaulty f rfl
      exact Run.failsAt_mapM hfinal hc (failsAt_clause_of_faulty hfaulty)
    · obtain ⟨c, hc, hpart⟩ := List.mem_flatMap.1 hpart
      exact Run.failsAt_mapM hfinal hc (failsAt_clause_of_body h henv hpart hfail)

theorem SpecialForm.failsAt_of_misused
    (h : StandsStill s deeper) (henv : env.MacroFreeIn s)
    {form : SpecialForm} {args : List Value} (hmisused : form.Misused args)
    (policy : SpawnPolicy) : (form.analyze deeper policy env args).FailsAt s := by
  cases form with
  | block => exact hmisused.elim
  | cond => exact (Run.failsAt_expectCount hmisused).bind _
  | define =>
    rcases hmisused with hcount | hsymbol
    · exact (Run.failsAt_expectCount hcount).bind _
    · refine Run.failsAt_bind (Run.final_expectCount "def" 1 2 args) fun _ => ?_
      split
      · next symbol value => exact absurd rfl (hsymbol symbol)
      · exact ⟨_, rfl⟩
      · exact ⟨_, rfl⟩
  | function => exact failsAt_fn h henv (.inl hmisused)
  | expander => exact failsAt_fn h henv (.inl hmisused)
  | quote =>
    refine (Run.failsAt_expectCount ?_).bind _
    simp only [Misused] at hmisused
    omega
  | go =>
    refine (Run.failsAt_expectCount ?_).bind _
    simp only [Misused] at hmisused
    omega
  | custom build => exact hmisused.elim

theorem SpecialForm.failsAt_of_part
    (h : StandsStill s deeper) (henv : env.MacroFreeIn s)
    {form : SpecialForm} {args : List Value} {part : Value} (hpart : part ∈ form.parts args)
    (hfail : ∀ env, env.MacroFreeIn s → (deeper env part).FailsAt s) (policy : SpawnPolicy) :
    (form.analyze deeper policy env args).FailsAt s := by
  cases form with
  | block => exact (failsAt_body h henv hpart (hfail env henv)).bind _
  | cond =>
    refine Run.failsAt_bind (Run.final_expectCount "if" 2 3 args) fun _ => ?_
    exact (failsAt_body h henv hpart (hfail env henv)).bind _
  | define =>
    refine Run.failsAt_bind (Run.final_expectCount "def" 1 2 args) fun _ => ?_
    split
    · exact (failsAt_body h henv hpart (hfail env henv)).bind _
    · exact ⟨_, rfl⟩
    · exact ⟨_, rfl⟩
  | function => exact failsAt_fn h henv (.inr ⟨part, hpart, hfail⟩)
  | expander => exact failsAt_fn h henv (.inr ⟨part, hpart, hfail⟩)
  | quote => cases hpart
  | go =>
    by_cases hcount : 1 ≤ args.length ∧ args.length ≤ 1
    · refine Run.failsAt_bind (Run.final_expectCount "go" 1 1 args) fun _ => ?_
      obtain ⟨arg, rfl⟩ := List.length_eq_one_iff.1 (Nat.le_antisymm hcount.2 hcount.1)
      cases List.mem_singleton.1 hpart
      exact (hfail env henv).bind _
    · exact (Run.failsAt_expectCount hcount).bind _
  | custom build => cases hpart

end

namespace Analyzer

section

variable (a : Analyzer) (host : Host) (limit left : Nat) {s : Store} {env : Env}

/-- A list that calls no macro is a special form or a call. -/
theorem analyze_list_of_macroOf {head : Value} {args : List Value}
    (h : (Level.macroOf env (.list (head :: args)) : Run _) s = .ok none s) :
    (a.analyze host limit (left + 1) env (.list (head :: args)) : Run Expr) s =
      (match a.special? head with
      | some special => special.analyze (a.analyze host limit left) a.spawnPolicy env args
      | none => do
        let target ← a.analyze host limit left env head
        let exprs ← args.mapM (a.analyze host limit left env)
        pure (.invoke head.display target exprs) : Run Expr) s := by
  rw [analyze_succ]
  exact Run.bind_of_ok (Level.expand_of_macroOf _ _ h)

theorem analyze_list_macroFree (henv : env.MacroFreeIn s) (head : Value) (args : List Value) :
    (a.analyze host limit (left + 1) env (.list (head :: args)) : Run Expr) s =
      (match a.special? head with
      | some special => special.analyze (a.analyze host limit left) a.spawnPolicy env args
      | none => do
        let target ← a.analyze host limit left env head
        let exprs ← args.mapM (a.analyze host limit left env)
        pure (.invoke head.display target exprs) : Run Expr) s :=
  a.analyze_list_of_macroOf host limit left (Level.macroOf_macroFree henv _)

theorem analyze_vector_macroFree (henv : env.MacroFreeIn s) (item : Value) (items : List Value) :
    (a.analyze host limit (left + 1) env (.vector (item :: items)) : Run Expr) s =
      (do
        let exprs ← (item :: items).mapM (a.analyze host limit left env)
        pure (.vector (item :: items) exprs) : Run Expr) s := by
  rw [analyze_succ]
  exact Run.bind_of_ok (Level.expand_macroFree _ _ henv _)

end

/-- A malformed form is not analyzed, whatever else it contains. -/
theorem Malformed.failsAt {a : Analyzer} (ha : a.IsUsual) {form : Value} (h : a.Malformed form)
    (host : Host) (limit left : Nat) {s : Store} {env : Env} (henv : env.MacroFreeIn s) :
    (a.analyze host limit left env form : Run Expr).FailsAt s := by
  -- on the levels left: without any, analysis fails all the same
  induction left generalizing env form with
  | zero => exact ⟨_, rfl⟩
  | succ left ih =>
    have hinner := inner_standstill ha host host limit left s s
    unfold Run.FailsAt
    cases h with
    | @misused head args special hspecial hmisused =>
      rw [analyze_list_macroFree a host limit left henv, hspecial]
      exact special.failsAt_of_misused hinner henv hmisused _
    | @inSpecial head args special part hspecial hpart hfault =>
      rw [analyze_list_macroFree a host limit left henv, hspecial]
      exact special.failsAt_of_part hinner henv hpart (fun env henv => ih hfault henv) _
    | @inCall head args part hspecial hpart hfault =>
      rw [analyze_list_macroFree a host limit left henv, hspecial]
      rcases List.mem_cons.1 hpart with rfl | hpart
      · exact (ih hfault henv).bind _
      · refine Run.failsAt_bind (hinner.analyze ⟨henv, henv⟩ head).2.1 fun target => ?_
        exact (failsAt_body hinner henv hpart (ih hfault henv)).bind _
    | @inVector items part hpart hfault =>
      obtain ⟨item, items, rfl⟩ := List.exists_cons_of_ne_nil (List.ne_nil_of_mem hpart)
      rw [analyze_vector_macroFree a host limit left henv]
      exact (failsAt_body hinner henv hpart (ih hfault henv)).bind _

/-! ## Independence of the environment -/

/-- Analysis touches and depends on the environment only through macros. In two environments where
none is bound, over whatever stores and hosts, it gives the same expression or the same error and
leaves both stores as they are; and a form that is malformed anywhere inside, evaluated in such an
environment, fails and has defined nothing. -/
theorem analyze_macroFree {a : Analyzer} (ha : a.IsUsual) (c : Context) (form : Value)
    (host₁ host₂ : Host) (s₁ s₂ : Store) (env₁ env₂ : Env) (h₁ : env₁.MacroFreeIn s₁)
    (h₂ : env₂.MacroFreeIn s₂) :
    Run.answer (a.analyze host₁ c.limit c.left env₁ form) s₁ =
      Run.answer (a.analyze host₂ c.limit c.left env₂ form) s₂ ∧
    Run.final (a.analyze host₁ c.limit c.left env₁ form) s₁ = s₁ ∧
    Run.final (a.analyze host₂ c.limit c.left env₂ form) s₂ = s₂ ∧
    (∀ e, Run.answer (a.analyze host₁ c.limit c.left env₁ form) s₁ = .error e →
      (a.evalTop host₁ c env₁ form : Run Value) s₁ = .error e s₁) ∧
    (a.Malformed form → Run.FailsAt (a.evalTop host₁ c env₁ form) s₁) := by
  obtain ⟨hanswer, hfinal₁, hfinal₂⟩ :=
    (inner_standstill ha host₁ host₂ c.limit c.left s₁ s₂).analyze ⟨h₁, h₂⟩ form
  refine ⟨hanswer, hfinal₁, hfinal₂, fun e he => ?_, fun hform => ?_⟩
  · exact Run.bind_of_error (Run.eq_error he hfinal₁)
  · exact (hform.failsAt ha host₁ c.limit c.left h₁).bind _

/-- The form `(do (def a 1) (if))`. -/
def halfMisused : Value :=
  .list [.symbol ⟨none, "do"⟩, .list [.symbol ⟨none, "def"⟩, .symbol ⟨none, "a"⟩, .int 1],
    .list [.symbol ⟨none, "if"⟩]]

/-- The `if` without arguments keeps the `def` before it from being run. The analysis is the same in
a frame that binds `if`. -/
theorem analyze_halfMisused :
    Run.FailsAt (standard.evalTop standardHost ⟨0, 100⟩ (.root 0) halfMisused)
      { roots := [Globals.ofNamespace "user"] } ∧
    Run.answer (standard.analyze standardHost 100 100 (.root 0) halfMisused)
        { roots := [Globals.ofNamespace "user"] } =
      Run.answer (standard.analyze standardHost 100 100 (.frame "f" [("if", .int 1)] (.root 0))
        halfMisused) {} := by
  have hglobals : (Globals.ofNamespace "user").MacroFree := Globals.macroFree_of_all (by decide)
  have hframe : Bindings.MacroFree [("if", .int 1)] := fun name v hv => by
    cases List.mem_singleton.1 (Bindings.mem_of_find? hv)
    rfl
  have hempty : (default : Globals).MacroFree := Globals.macroFree_of_all nofun
  have h := analyze_macroFree standard_isUsual ⟨0, 100⟩ halfMisused standardHost standardHost
    { roots := [Globals.ofNamespace "user"] } {} (.root 0) (.frame "f" [("if", .int 1)] (.root 0))
    hglobals ⟨hframe, hempty⟩
  refine ⟨h.2.2.2.2 ?_, h.1⟩
  have hif : standard.special? (.symbol ⟨none, "if"⟩) = some .cond := by cbv
  have hdo : standard.special? (.symbol ⟨none, "do"⟩) = some .block := by cbv
  have hmisused : SpecialForm.cond.Misused [] := by simp only [SpecialForm.Misused]; decide
  exact .inSpecial hdo (List.mem_cons_of_mem _ List.mem_cons_self) (.misused hif hmisused)

end Analyzer

end LispCore
