import LispCore.Proofs.CallFrames
import LispCore.Proofs.Expansion
import LispCore.Proofs.MacroFree

/-!
# Names of enclosing functions are not expanded

`Analyzer.Reaches` follows analysis from a form into the forms inside it, through calls, special
forms, vectors, bodies and expansions, and collects the names that the functions on the way bind.
It misses no place: what expansion does elsewhere makes no difference (`Analyzer.analyzeBy_eq`). At
every place that is reached the frames bind the collected names to nil, so a list whose head is one
of them calls no macro there, whatever is bound further out.
-/

namespace LispCore

/-! ## Places that analysis comes to -/

/-- The names that a function with this name and these parameters binds in its body. -/
def boundNames (name : Option Symbol) (params : List Symbol) : List String :=
  name.toList.map (·.base) ++ params.map (·.base)

/-- The names that frames around a form bind in it, each for a function with its parameters. -/
def shadowedNames (shadows : List (Option Symbol × List Symbol)) : List String :=
  shadows.flatMap fun (name, params) => boundNames name params

/-- A custom special form may have a form analyzed inside these frames, after whatever came of the
forms before it. -/
inductive Parsing.Asks (shadows : List (Option Symbol × List Symbol)) (form : Value) :
    Parsing → Prop where
  | now {next : Expr → Parsing} : Asks shadows form (.analyze shadows form next)
  | later {shadows' : List (Option Symbol × List Symbol)} {form' : Value} {next : Expr → Parsing}
      (e : Expr) (h : Asks shadows form (next e)) :
    Asks shadows form (.analyze shadows' form' next)

/-- A form that is analyzed in turn as part of a special form, the environment it is analyzed in, and
the names that are bound there on top of those of `env`. -/
inductive SpecialForm.Part (policy : SpawnPolicy) (env : Env) (args : List Value) :
    SpecialForm → List String → Env → Value → Prop where
  | argument {form : SpecialForm} {part : Value} (hform : ∀ isMacro, form ≠ definition isMacro)
      (hpart : part ∈ form.parts args) : Part policy env args form [] env part
  | body {isMacro : Bool} {f : FnForm} {clause part : Value} {c : Arity (List Value)}
      (hparse : FnForm.parse args = .ok f) (hclause : clause ∈ f.clauses)
      (hc : Clause.Written clause c) (hpart : part ∈ c.body) :
    Part policy env args (definition isMacro) (boundNames f.name c.params)
      (shadowFrame env f.name c.params) part
  | asked {parse : SpawnPolicy → Env → List Value → Parsing}
      {shadows : List (Option Symbol × List Symbol)} {part : Value}
      (hasks : (parse policy env args).Asks shadows part) :
    Part policy env args (.custom parse) (shadowedNames shadows) (shadowFrames env shadows) part

/-- A form to be analyzed: the levels that are left, and the environment. -/
structure Place where
  left : Nat
  env : Env
  form : Value

namespace Analyzer

/-- A form directly inside an expanded one that is analyzed in turn, with what is bound there. -/
inductive Part (a : Analyzer) (env : Env) : Value → List String → Env → Value → Prop where
  | special {head part : Value} {args : List Value} {form : SpecialForm} {bound : List String}
      {scope : Env} (hspecial : a.special? head = some form)
      (hpart : form.Part a.spawnPolicy env args bound scope part) :
    Part a env (.list (head :: args)) bound scope part
  | call {head part : Value} {args : List Value} (hspecial : a.special? head = none)
      (hpart : part ∈ head :: args) : Part a env (.list (head :: args)) [] env part
  | item {items : List Value} {part : Value} (hpart : part ∈ items) :
    Part a env (.vector items) [] env part

/-- Analysis that starts at one place may come to another, inside functions that bind `names`. An
expansion may have been made from whatever store. -/
inductive Reaches (a : Analyzer) (host : Host) (limit : Nat) (start : Place) :
    List String → Place → Prop where
  | here : Reaches a host limit start [] start
  | expansion {names : List String} {left : Nat} {env : Env} {form next : Value} {s t : Store}
      (h : Reaches a host limit start names ⟨left + 1, env, form⟩)
      (honce : (⟨host, ⟨limit - left, limit⟩, eval host limit left⟩ : Level Run).expandOnce env
        form s = .ok (some next) t) : Reaches a host limit start names ⟨left + 1, env, next⟩
  | part {names bound : List String} {left : Nat} {env scope : Env} {form part : Value}
      (h : Reaches a host limit start names ⟨left + 1, env, form⟩)
      (hpart : a.Part env form bound scope part) :
    Reaches a host limit start (bound ++ names) ⟨left, scope, part⟩

/-- Analysis that expands forms in a way of its own. -/
def analyzeBy (a : Analyzer) (limit : Nat) (expand : Nat → Env → Value → Run Value) :
    (left : Nat) → Env → Value → Run Expr
  | 0, _, _ => fail (.depthExceeded limit)
  | left + 1, env, form => a.analyzeForm (expand left) (analyzeBy a limit expand left) env form

end Analyzer

/-! ## No place is missed -/

section

variable {deeper₁ deeper₂ : Env → Value → Run Expr} {env : Env} {args : List Value}

theorem body_congr {forms : List Value} (h : ∀ part ∈ forms, deeper₁ env part = deeper₂ env part) :
    forms.mapM (deeper₁ env) = forms.mapM (deeper₂ env) :=
  Agreement.mapM (R := .same) h

theorem analyzeClause_congr {name : Option Symbol} {clause : Value} (form : String)
    (h : ∀ c, Clause.Written clause c → ∀ part ∈ c.body,
      deeper₁ (shadowFrame env name c.params) part = deeper₂ (shadowFrame env name c.params) part) :
    analyzeClause deeper₁ form env name clause = analyzeClause deeper₂ form env name clause := by
  unfold analyzeClause
  cases hclause : Clause.ofForm clause with
  | error fault => rfl
  | ok parts =>
    cases hparams : Params.parse parts.params with
    | error fault =>
      simp only [checked, pure_bind, hparams]
      rfl
    | ok parsed =>
      have hwritten : Clause.Written clause ⟨parsed.1, parsed.2, parts.body⟩ :=
        ⟨parts.params, Clause.ofForm_eq_ok_iff.1 hclause, Params.parse_eq_ok_iff.1 hparams⟩
      simp only [checked, pure_bind, hparams, body_congr (h _ hwritten)]

theorem analyzeFn_congr (form : String) (isMacro : Bool)
    (h : ∀ scope part, FnForm.BodyForm env args scope part →
      deeper₁ scope part = deeper₂ scope part) :
    analyzeFn deeper₁ form isMacro env args = analyzeFn deeper₂ form isMacro env args := by
  unfold analyzeFn
  cases hparse : FnForm.parse args with
  | error fault => rfl
  | ok f =>
    have hclauses : f.clauses.mapM (analyzeClause deeper₁ form env f.name) =
        f.clauses.mapM (analyzeClause deeper₂ form env f.name) :=
      Agreement.mapM (R := .same) fun clause hclause => analyzeClause_congr form
        fun c hc part hpart => h _ _ (.intro hparse hclause hc hpart)
    simp only [checked, pure_bind, hclauses]

theorem Parsing.run_congr {p : Parsing}
    (h : ∀ shadows part, p.Asks shadows part →
      deeper₁ (shadowFrames env shadows) part = deeper₂ (shadowFrames env shadows) part) :
    p.run deeper₁ env = p.run deeper₂ env := by
  induction p with
  | done e => rfl
  | failed e => rfl
  | analyze shadows form next ih =>
    have hnext (e : Expr) : (next e).run deeper₁ env = (next e).run deeper₂ env :=
      ih e fun shadows part hasks => h shadows part (.later e hasks)
    simp only [Parsing.run, h shadows form .now, hnext]

/-- A special form is made of the analysis of its parts. -/
theorem SpecialForm.analyze_congr {form : SpecialForm} {policy : SpawnPolicy}
    (h : ∀ bound scope part, form.Part policy env args bound scope part →
      deeper₁ scope part = deeper₂ scope part) :
    form.analyze deeper₁ policy env args = form.analyze deeper₂ policy env args := by
  have hargument (hform : ∀ isMacro, form ≠ definition isMacro) (part : Value)
      (hpart : part ∈ form.parts args) : deeper₁ env part = deeper₂ env part :=
    h _ _ _ (.argument hform hpart)
  have hbody (isMacro : Bool) (hform : form = definition isMacro) (scope : Env) (part : Value)
      (hpart : FnForm.BodyForm env args scope part) : deeper₁ scope part = deeper₂ scope part := by
    subst hform
    cases hpart with
    | intro hparse hclause hc hpart => exact h _ _ _ (.body hparse hclause hc hpart)
  cases form with
  | block =>
    have hargs : args.mapM (deeper₁ env) = args.mapM (deeper₂ env) :=
      body_congr (hargument (by rintro (_ | _) ⟨⟩))
    simp only [SpecialForm.analyze, hargs]
  | cond =>
    have hargs : args.mapM (deeper₁ env) = args.mapM (deeper₂ env) :=
      body_congr (hargument (by rintro (_ | _) ⟨⟩))
    simp only [SpecialForm.analyze, hargs]
  | define =>
    cases args with
    | nil => rfl
    | cons target value =>
      have hvalue : value.mapM (deeper₁ env) = value.mapM (deeper₂ env) :=
        body_congr (hargument (by rintro (_ | _) ⟨⟩))
      cases target with
      | symbol s => simp only [SpecialForm.analyze, hvalue]
      | _ => rfl
  | function => exact analyzeFn_congr "fn" false (hbody false rfl)
  | expander => exact analyzeFn_congr "macro" true (hbody true rfl)
  | quote => rfl
  | go =>
    cases args with
    | nil => rfl
    | cons body _ =>
      have hbody := hargument (by rintro (_ | _) ⟨⟩) body List.mem_cons_self
      simp only [SpecialForm.analyze, List.headD_cons, hbody]
  | custom parse => exact Parsing.run_congr fun _ _ hasks => h _ _ _ (.asked hasks)

end

namespace Analyzer

variable {a : Analyzer} {host : Host} {limit left : Nat} {env : Env} {form : Value}

/-- Analysis of a form is made of the analysis of the parts of what it expands to. -/
theorem analyzeForm_congr {expand : Env → Value → Run Value}
    {deeper₁ deeper₂ : Env → Value → Run Expr}
    (h : ∀ s g t, expand env form s = .ok g t → ∀ bound scope part,
      a.Part env g bound scope part → deeper₁ scope part = deeper₂ scope part) :
    a.analyzeForm expand deeper₁ env form = a.analyzeForm expand deeper₂ env form := by
  unfold analyzeForm
  split
  · rfl
  funext s
  cases hexpand : expand env form s with
  | error e t => rw [Run.bind_of_error hexpand, Run.bind_of_error hexpand]
  | ok g t =>
    rw [Run.bind_of_ok hexpand, Run.bind_of_ok hexpand]
    have hpart := h s g t hexpand
    split
    · rfl
    · next head args =>
      cases hspecial : a.special? head with
      | some special =>
        dsimp only
        rw [SpecialForm.analyze_congr fun _ _ _ hp => hpart _ _ _ (.special hspecial hp)]
      | none =>
        have htarget : deeper₁ env head = deeper₂ env head :=
          hpart _ _ _ (.call hspecial List.mem_cons_self)
        have hargs : args.mapM (deeper₁ env) = args.mapM (deeper₂ env) :=
          body_congr fun part hp => hpart _ _ _ (.call hspecial (List.mem_cons_of_mem head hp))
        simp only [htarget, hargs]
    · next item items =>
      have hitems : (item :: items).mapM (deeper₁ env) = (item :: items).mapM (deeper₂ env) :=
        body_congr fun part hp => hpart _ _ _ (.item hp)
      rw [hitems]
    · rfl

namespace Reaches

variable {start place last : Place} {names : List String}

/-- Expansion of a form that is reached ends at a form that is reached. -/
theorem expands {n : Nat} {g : Value} {s t : Store}
    (h : a.Reaches host limit start names ⟨left + 1, env, form⟩)
    (hexpands : (⟨host, ⟨limit - left, limit⟩, eval host limit left⟩ : Level Run).Expands env n form
      s g t) : a.Reaches host limit start names ⟨left + 1, env, g⟩ := by
  induction hexpands with
  | refl => exact h
  | step honce _ ih => exact ih (h.expansion honce)

theorem trans {names' : List String} (h : a.Reaches host limit start names place)
    (h' : a.Reaches host limit place names' last) :
    a.Reaches host limit start (names' ++ names) last := by
  induction h' with
  | here => exact h
  | expansion _ honce ih => exact ih.expansion honce
  | part _ hpart ih =>
    rw [List.append_assoc]
    exact ih.part hpart

end Reaches

/-- What expansion does at places that are not reached makes no difference. -/
theorem analyzeBy_eq {expand : Nat → Env → Value → Run Value}
    (h : ∀ names left' env' form', a.Reaches host limit ⟨left, env, form⟩ names
      ⟨left' + 1, env', form'⟩ →
      expand left' env' form' = a.expandBelow host limit left' env' form') :
    a.analyzeBy limit expand left env form = a.analyze host limit left env form := by
  induction left generalizing env form with
  | zero => rfl
  | succ left ih =>
    have hhere : expand left env form = a.expandBelow host limit left env form := h _ _ _ _ .here
    have hown : a.analyzeBy limit expand (left + 1) env form =
        a.analyzeForm (a.expandBelow host limit left) (a.analyzeBy limit expand left) env form := by
      simp only [analyzeBy, analyzeForm, hhere]
    rw [hown, analyze_succ]
    refine analyzeForm_congr fun s g t hexpand bound scope part hpart => ih ?_
    intro names left' env' form' hreaches
    obtain ⟨n, -, hexpands, -⟩ := Level.expandLoop_eq_ok_iff.1 hexpand
    have hg : a.Reaches host limit ⟨left + 1, env, form⟩ [] ⟨left + 1, env, g⟩ :=
      Reaches.here.expands hexpands
    exact h _ _ _ _ ((hg.part hpart).trans hreaches)

end Analyzer

/-! ## What is bound at a place -/

theorem Env.find?_child (env : Env) (name : String) (vars : Bindings Value) (n : String) :
    (env.child name vars).find? n = (vars.find? n).or (env.find? n) := by
  unfold Env.child
  rw [Env.find?]
  cases vars.find? n <;> rfl

/-- The frame of a body binds the names of the function to nil and hides nothing else. -/
theorem find?_shadowFrame (env : Env) (name : Option Symbol) (params : List Symbol) (n : String) :
    (shadowFrame env name params).find? n =
      if n ∈ boundNames name params then some .nil else env.find? n := by
  let vars : Bindings Value := .ofPairs ((boundNames name params).map fun n => (n, Value.nil))
  have hchild : (shadowFrame env name params).find? n = (vars.find? n).or (env.find? n) :=
    env.find?_child _ vars n
  rw [hchild]
  cases hfind : vars.find? n with
  | some v =>
    obtain ⟨_, _, _, hnames, hpair, -⟩ := Bindings.find?_ofPairs_map_iff.1 hfind
    cases hpair
    rw [if_pos (by rw [hnames]; simp)]
    rfl
  | none =>
    have hother := Bindings.find?_ofPairs_map_eq_none_iff.1 hfind
    rw [if_neg fun hn => hother n hn rfl]
    rfl

/-- Frames one inside the other hide what all of them bind. -/
theorem find?_shadowFrames (env : Env) (shadows : List (Option Symbol × List Symbol)) (n : String) :
    (shadowFrames env shadows).find? n =
      if n ∈ shadowedNames shadows then some .nil else env.find? n := by
  induction shadows generalizing env with
  | nil => rfl
  | cons shadow shadows ih =>
    have hinner : (shadowFrames env (shadow :: shadows)).find? n =
        (shadowFrames (shadowFrame env shadow.1 shadow.2) shadows).find? n := rfl
    have hnames : shadowedNames (shadow :: shadows) =
        boundNames shadow.1 shadow.2 ++ shadowedNames shadows := List.flatMap_cons
    rw [hinner, ih, find?_shadowFrame, hnames]
    by_cases hlater : n ∈ shadowedNames shadows <;> simp [hlater]

namespace Analyzer

variable {a : Analyzer} {host : Host} {limit : Nat} {start place : Place}
  {names bound : List String} {env scope : Env} {form part : Value}

theorem Part.find? (h : a.Part env form bound scope part) (n : String) :
    scope.find? n = if n ∈ bound then some .nil else env.find? n := by
  cases h with
  | special hspecial hpart =>
    cases hpart with
    | argument hform hpart => rfl
    | body hparse hclause hc hpart => exact find?_shadowFrame env _ _ n
    | asked hasks => exact find?_shadowFrames env _ n
  | call hspecial hpart => rfl
  | item hpart => rfl

/-- The names of the enclosing functions are bound to nil wherever analysis comes. -/
theorem Reaches.find? (h : a.Reaches host limit start names place) {n : String} (hn : n ∈ names) :
    place.env.find? n = some .nil := by
  induction h with
  | here => cases hn
  | expansion _ _ ih => exact ih hn
  | part _ hpart ih =>
    rw [hpart.find? n]
    rcases List.mem_append.1 hn with hbound | hn
    · rw [if_pos hbound]
    · split
      · rfl
      · exact ih hn

/-- A symbol without a namespace that a frame binds to nil calls no macro. -/
theorem macroOf_of_nil {head : Symbol} (hspace : head.space = none)
    (hfind : env.find? head.base = some .nil) (args : List Value) (s : Store) :
    (Level.macroOf env (.list (.symbol head :: args)) : Run _) s = .ok none s := by
  refine Level.macroOf_of_lookup (fun v hv => ?_) args
  unfold Env.lookup at hv
  rw [hspace, hfind] at hv
  cases hv
  rfl

/-- The names of enclosing functions and their parameters are never expanded, nor those that custom
special forms bind around the forms that they have analyzed. A list whose head is such a name,
wherever the analysis of a form comes to it, is left as it is by a single expansion at every level
and from every store, and is analyzed as a special form or as a call. Whatever expansion does at
places that are not among these makes no difference. -/
theorem enclosing_names_not_expanded (a : Analyzer) (host : Host) (limit : Nat) (start : Place) :
    (∀ expand : Nat → Env → Value → Run Value,
      (∀ names left env form, a.Reaches host limit start names ⟨left + 1, env, form⟩ →
        expand left env form = a.expandBelow host limit left env form) →
      a.analyzeBy limit expand start.left start.env start.form =
        a.analyze host limit start.left start.env start.form) ∧
    ∀ names left env head args,
      a.Reaches host limit start names ⟨left, env, .list (.symbol head :: args)⟩ →
      head.space = none → head.base ∈ names → ∀ s,
      (∀ lv : Level Run, lv.expandOnce env (.list (.symbol head :: args)) s = .ok none s) ∧
      ∀ left, (a.analyze host limit (left + 1) env (.list (.symbol head :: args)) : Run Expr) s =
        (match a.special? (.symbol head) with
        | some special => special.analyze (a.analyze host limit left) a.spawnPolicy env args
        | none => do
          let target ← a.analyze host limit left env (.symbol head)
          let exprs ← args.mapM (a.analyze host limit left env)
          pure (.invoke (Value.symbol head).display target exprs) : Run Expr) s := by
  refine ⟨fun expand h => analyzeBy_eq h, ?_⟩
  intro names left env head args hreaches hspace hname s
  have hnone : (Level.macroOf env (.list (.symbol head :: args)) : Run _) s = .ok none s :=
    macroOf_of_nil hspace (hreaches.find? hname) args s
  exact ⟨fun lv => Level.expandOnce_eq_none_iff.2 ⟨rfl, hnone⟩,
    fun left => a.analyze_list_of_macroOf host limit left hnone⟩

/-- Globals with the macro `m` and a macro `relay` that expands to a call of it. -/
def relayGlobals : Globals :=
  let relay : Closure :=
    { SpecialForm.constantMacro with
      arities := [⟨[], false, some (.quote (.list [.symbol ⟨none, "m"⟩]))⟩] }
  ⟨"user", [("user", [("m", .fn SpecialForm.constantMacro), ("relay", .fn relay)])]⟩

/-- In `(fn [m] [(relay)])` the expansion of `(relay)` is the call `(m)` of the parameter, although
`m` is a macro outside. -/
theorem enclosing_names_not_expanded_relay :
    let m : Value := .symbol ⟨none, "m"⟩
    let relay : Value := .list [.symbol ⟨none, "relay"⟩]
    let form : Value := .list [.symbol ⟨none, "fn"⟩, .vector [m], .vector [relay]]
    let body := shadowFrame (.root 0) none [⟨none, "m"⟩]
    let lv : Level Run := ⟨standardHost, ⟨8, 9⟩, eval standardHost 9 1⟩
    let s : Store := { roots := [relayGlobals] }
    standard.Reaches standardHost 9 ⟨4, .root 0, form⟩ ["m"] ⟨2, body, .list [m]⟩ ∧
    lv.expandOnce (.root 0) (.list [m]) s = .ok (some (.int 42)) s ∧
    lv.expandOnce body (.list [m]) s = .ok none s ∧
    (standard.analyze standardHost 9 2 body (.list [m]) : Run Expr) s =
      .ok (.invoke "m" (.resolve ⟨none, "m"⟩) []) s := by
  intro m relay form body lv s
  have hrelay : lv.expandOnce body relay s = .ok (some (.list [m])) s := by cbv
  have hparse : FnForm.parse [.vector [m], .vector [relay]] =
      .ok ⟨none, none, [.list [.vector [m], .vector [relay]]]⟩ := by cbv
  have hclause : Clause.Written (.list [.vector [m], .vector [relay]])
      ⟨[⟨none, "m"⟩], false, [.vector [relay]]⟩ :=
    ⟨[m], rfl, Params.parse_eq_ok_iff.1 (by cbv)⟩
  have hbody : (SpecialForm.definition false).Part standard.spawnPolicy (.root 0)
      [.vector [m], .vector [relay]] ["m"] body (.vector [relay]) :=
    .body hparse (List.mem_singleton.2 rfl) hclause (List.mem_singleton.2 rfl)
  have hpart : standard.Part (.root 0) form ["m"] body (.vector [relay]) := .special rfl hbody
  have hvector : standard.Reaches standardHost 9 ⟨4, .root 0, form⟩ ["m"]
      ⟨3, body, .vector [relay]⟩ := .part .here hpart
  have hcall : standard.Reaches standardHost 9 ⟨4, .root 0, form⟩ ["m"] ⟨2, body, .list [m]⟩ :=
    .expansion (.part hvector (.item (List.mem_singleton.2 rfl))) hrelay
  obtain ⟨-, hkept⟩ := enclosing_names_not_expanded standard standardHost 9 ⟨4, .root 0, form⟩
  obtain ⟨honce, hanalyze⟩ := hkept ["m"] 2 body ⟨none, "m"⟩ [] hcall rfl (by decide) s
  exact ⟨hcall, by cbv, honce lv, (hanalyze 1).trans (by cbv)⟩

end Analyzer

end LispCore
