import LispCore.Proofs.Interleaving

/-!
# Well-formed values

The environment and the bodies of a closure may be missing, and so may the function behind a native
one; calling such a value is an internal error. Values are well formed if no closure and no native
function in them, at any depth, is of that kind: closures are what an expression makes in an
environment. Evaluation keeps them so, hence no run over a well-formed store ends in an internal
error.

The predicates are for values whose symbols satisfy a condition `P`, so that they also say what
names can occur in a run.
-/

namespace LispCore

mutual

/-- Every closure in the value is what an expression makes in an environment, every native function
has a function behind it, and every symbol satisfies `P`. -/
inductive Value.WellFormed (P : Symbol → Prop) : Value → Prop where
  | nil : Value.WellFormed P .nil
  | bool (b : Bool) : Value.WellFormed P (.bool b)
  | int (n : Int64) : Value.WellFormed P (.int n)
  | float (x : Double) : Value.WellFormed P (.float x)
  | char (c : Char) : Value.WellFormed P (.char c)
  | str (s : String) : Value.WellFormed P (.str s)
  | symbol {s : Symbol} : P s → Value.WellFormed P (.symbol s)
  | keyword (k : Keyword) : Value.WellFormed P (.keyword k)
  | list {items : List Value} :
    (∀ v ∈ items, Value.WellFormed P v) → Value.WellFormed P (.list items)
  | vector {items : List Value} :
    (∀ v ∈ items, Value.WellFormed P v) → Value.WellFormed P (.vector items)
  | fn (id : Nat) {name : Option Symbol} (doc : Option String) (isMacro : Bool)
      {arities : List (Arity Expr)} {env : Env} :
    Expr.WellFormed P (.fn name doc isMacro arities) → Env.WellFormed P env →
      Value.WellFormed P (.fn (.instantiate id name doc isMacro arities env))
  | native (id : Nat) (name function : String) :
    Value.WellFormed P (.native ⟨id, name, some function⟩)
  | foreign (x : Foreign) : Value.WellFormed P (.foreign x)

inductive Env.WellFormed (P : Symbol → Prop) : Env → Prop where
  | root (id : Nat) : Env.WellFormed P (.root id)
  | frame (name : String) {vars : List (String × Value)} {parent : Env} :
    (∀ p ∈ vars, Value.WellFormed P p.2) → Env.WellFormed P parent →
      Env.WellFormed P (.frame name vars parent)

inductive Expr.WellFormed (P : Symbol → Prop) : Expr → Prop where
  | const {v : Value} : Value.WellFormed P v → Expr.WellFormed P (.const v)
  | quote {v : Value} : Value.WellFormed P v → Expr.WellFormed P (.quote v)
  | define {s : Symbol} {e : Option Expr} :
    P s → (∀ e' ∈ e, Expr.WellFormed P e') → Expr.WellFormed P (.define s e)
  | cond {test yes no : Option Expr} :
    (∀ e ∈ test, Expr.WellFormed P e) → (∀ e ∈ yes, Expr.WellFormed P e) →
      (∀ e ∈ no, Expr.WellFormed P e) →
      Expr.WellFormed P (.cond test yes no)
  | block {body : List Expr} :
    (∀ e ∈ body, Expr.WellFormed P e) → Expr.WellFormed P (.block body)
  | resolve {s : Symbol} : P s → Expr.WellFormed P (.resolve s)
  | invoke (name : String) {target : Expr} {args : List Expr} :
    Expr.WellFormed P target → (∀ e ∈ args, Expr.WellFormed P e) →
      Expr.WellFormed P (.invoke name target args)
  | vector {items : List Value} {exprs : List Expr} :
    (∀ v ∈ items, Value.WellFormed P v) → (∀ e ∈ exprs, Expr.WellFormed P e) →
      Expr.WellFormed P (.vector items exprs)
  | fn {name : Option Symbol} (doc : Option String) (isMacro : Bool) {arities : List (Arity Expr)} :
    (∀ s ∈ name, P s) → (∀ a ∈ arities, ∀ s ∈ a.params, P s) →
      (∀ a ∈ arities, Expr.WellFormed P a.body) →
        Expr.WellFormed P (.fn name doc isMacro arities)
  | go {body : Expr} (policy : SpawnPolicy) :
    Expr.WellFormed P body → Expr.WellFormed P (.go body policy)

end

/-! ## Calls of well-formed closures -/

namespace Closure

/-- The frame of a call holds what is bound in it, unless a name is blank. -/
theorem bindAll_fits {error : Error → Prop} {Q : Value → Prop} {pairs : List (String × Value)}
    (hvalues : ∀ p ∈ pairs, Q p.2)
    (hnames : ∀ p ∈ pairs, Text.allBlank p.1 = true → error (.invalidName p.1)) :
    Fits error (fun vars => ∀ p ∈ vars, Q p.2) (bindAll pairs) := by
  suffices go : ∀ vars : Bindings Value, (∀ p ∈ vars, Q p.2) →
      Fits error (fun vars => ∀ p ∈ vars, Q p.2) (pairs.foldlM (fun vars p => do
        return Bindings.insert (← bindingName p.1) p.2 vars) vars) from go [] nofun
  induction pairs with
  | nil => exact fun vars hvars => hvars
  | cons p rest ih =>
    intro vars hvars
    rw [List.foldlM_cons, bindingName_eq]
    by_cases hblank : Text.allBlank p.1 = true
    · rw [if_pos hblank]
      exact hnames p List.mem_cons_self hblank
    · rw [if_neg hblank]
      refine ih (fun q hq => hvalues q (List.mem_cons_of_mem p hq))
        (fun q hq => hnames q (List.mem_cons_of_mem p hq)) _ fun q hq => ?_
      rcases Bindings.mem_of_mem_insert hq with rfl | hq
      · exact hvalues p List.mem_cons_self
      · exact hvars q hq

/-- What a call binds are the arguments, lists of them, and the closure itself, under the names of
the closure and of its parameters. -/
theorem forall_mem_arguments {f : Closure} {a : Arity (Option Expr)} {args : List Value}
    {Q : String × Value → Prop} (hown : ∀ s ∈ f.name, Q (s.base, .fn f))
    (hpositional : ∀ s ∈ a.params, ∀ v ∈ args, Q (s.base, v))
    (hrest : ∀ s ∈ a.params, Q (s.base, restValue (args.drop a.required))) :
    ∀ p ∈ f.arguments a args, Q p := by
  intro p hp
  unfold arguments at hp
  simp only [List.mem_append, or_assoc] at hp
  rcases hp with hp | hp | hp
  · obtain ⟨s, hs, rfl⟩ := List.mem_map.1 hp
    exact hown s (Option.mem_toList.1 hs)
  · obtain ⟨⟨s, v⟩, hmem, rfl⟩ := List.mem_map.1 hp
    obtain ⟨hs, hv⟩ := List.of_mem_zip hmem
    exact hpositional s (List.mem_of_mem_take hs) v hv
  · split at hp
    · obtain ⟨s, hs, rfl⟩ := List.mem_map.1 hp
      have hmem := List.mem_of_mem_head? (Option.mem_toList.1 hs)
      exact hrest s (List.mem_of_mem_drop hmem)
    · cases hp

end Closure

section

variable {P : Symbol → Prop}

/-- Errors that are not internal; one about a blank name is about a symbol that satisfies `P`. -/
structure Error.Ordinary (P : Symbol → Prop) (e : Error) : Prop where
  internal (text : String) : e ≠ .internal text
  invalidName (name : String) (he : e = .invalidName name) :
    Text.allBlank name = true ∧ ∃ s, P s ∧ s.base = name

theorem Error.Ordinary.of_plain {e : Error} (hinternal : ∀ text, e ≠ .internal text)
    (hname : ∀ name, e ≠ .invalidName name) : e.Ordinary P :=
  ⟨hinternal, fun name he => absurd he (hname name)⟩

theorem Error.Ordinary.of_blank {s : Symbol} (hs : P s) (hblank : Text.allBlank s.base = true) :
    (Error.invalidName s.base).Ordinary P :=
  ⟨nofun, fun name he => by cases he; exact ⟨hblank, s, hs, rfl⟩⟩

theorem Value.WellFormed.restValue {args : List Value} (h : ∀ v ∈ args, v.WellFormed P) :
    (Closure.restValue args).WellFormed P := by
  unfold Closure.restValue
  split
  · exact .nil
  · exact .list h

theorem Value.WellFormed.bindAll {f : Closure} {a : Arity (Option Expr)} {args : List Value}
    (hf : (Value.fn f).WellFormed P) (hname : ∀ s ∈ f.name, P s) (hparams : ∀ s ∈ a.params, P s)
    (hargs : ∀ v ∈ args, v.WellFormed P) :
    Fits (Error.Ordinary P) (fun vars => ∀ p ∈ vars, p.2.WellFormed P)
      (Closure.bindAll (f.arguments a args)) := by
  refine Closure.bindAll_fits (Closure.forall_mem_arguments (fun _ _ => hf) (fun _ _ => hargs) ?_)
    (Closure.forall_mem_arguments (fun s hs => .of_blank (hname s hs)) ?_ ?_)
  · exact fun _ _ => .restValue fun v hv => hargs v (List.mem_of_mem_drop hv)
  · exact fun s hs _ _ => .of_blank (hparams s hs)
  · exact fun s hs => .of_blank (hparams s hs)

/-- A well-formed closure has an environment and its bodies, so a call enters one of them. -/
theorem Value.WellFormed.enter {f : Closure} {args : List Value}
    (hf : (Value.fn f).WellFormed P) (hargs : ∀ v ∈ args, v.WellFormed P) :
    Fits (Error.Ordinary P) (fun entered => entered.1.WellFormed P ∧ entered.2.WellFormed P)
      (f.enter args) := by
  have hself := hf
  cases hf with | fn id doc isMacro hfn henv =>
  cases hfn with | fn _ _ hname hparams hbodies =>
  unfold Closure.enter
  split
  · exact .of_plain nofun nofun
  · next a hfind =>
    obtain ⟨b, hb, rfl⟩ := List.mem_map.1 (List.mem_of_find?_eq_some hfind)
    have hbound := hself.bindAll (a := { b with body := some b.body }) hname (hparams b hb) hargs
    simp only [Closure.instantiate] at hbound ⊢
    generalize Closure.bindAll _ = bound at hbound ⊢
    cases bound with
    | ok vars => exact ⟨.frame _ hbound henv, hbodies b hb⟩
    | error e => exact hbound

theorem Env.WellFormed.find? {env : Env} (henv : env.WellFormed P) {name : String} {v : Value}
    (hfind : env.find? name = some v) : v.WellFormed P := by
  induction env using Env.chain_induction with
  | root id => cases hfind
  | frame frame vars parent ih =>
    cases henv with | frame _ hvars hparent =>
    rw [Env.find?] at hfind
    split at hfind
    · next hv =>
      cases hfind
      exact hvars _ (Bindings.mem_of_find? hv)
    · exact ih hparent hfind

theorem Fits.mono {α : Type} {error error' : Error → Prop} {Q : α → Prop} {r : Except Error α}
    (h : Fits error Q r) (herror : ∀ e, error e → error' e) : Fits error' Q r := by
  cases r with
  | ok a => exact h
  | error e => exact herror e h

/-- The realm of well-formed values, with any class of errors that has the ordinary ones. -/
def Realm.wellFormed (P : Symbol → Prop) (trimmed : ∀ s, P s → P s.trimmed)
    (error : Error → Prop) (ordinary : ∀ e, e.Ordinary P → error e) : Realm where
  symbol := P
  value := Value.WellFormed P
  env := Env.WellFormed P
  expr := Expr.WellFormed P
  error := error
  trimmed := trimmed _
  nil := .nil
  symbol_iff := ⟨fun | .symbol hs => hs, .symbol⟩
  list_iff := ⟨fun | .list h => h, .list⟩
  vector_iff := ⟨fun | .vector h => h, .vector⟩
  const_iff := ⟨fun | .const h => h, .const⟩
  quote_iff := ⟨fun | .quote h => h, .quote⟩
  define_iff := ⟨fun | .define hs he => ⟨hs, he⟩, fun h => .define h.1 h.2⟩
  cond_iff := ⟨fun | .cond ht hy hn => ⟨ht, hy, hn⟩, fun h => .cond h.1 h.2.1 h.2.2⟩
  block_iff := ⟨fun | .block h => h, .block⟩
  resolve_iff := ⟨fun | .resolve h => h, .resolve⟩
  invoke_iff := ⟨fun | .invoke _ ht ha => ⟨ht, ha⟩, fun h => .invoke _ h.1 h.2⟩
  literal_iff := ⟨fun | .vector hi he => ⟨hi, he⟩, fun h => .vector h.1 h.2⟩
  fn_iff := ⟨fun | .fn _ _ hn hp hb => ⟨hn, fun a ha => ⟨hp a ha, hb a ha⟩⟩,
    fun h => .fn _ _ h.1 (fun a ha => (h.2 a ha).1) fun a ha => (h.2 a ha).2⟩
  go_iff := ⟨fun | .go _ h => h, .go _⟩
  child name he hvars := .frame name hvars he
  find he hfind := he.find? hfind
  instantiate id hfn he := .fn id _ _ hfn he
  enter hf hargs := (hf.enter hargs).mono ordinary
  uncallable hf hnone _ := by
    cases hf
    cases hnone
  blank hs hblank := ordinary _ (.of_blank hs hblank)
  plain hinternal hname := ordinary _ (.of_plain hinternal hname)

/-! ## The builtins -/

theorem Fits.bind {α β : Type} {error : Error → Prop} {Q : α → Prop} {R : β → Prop}
    {x : Except Error α} {f : α → Except Error β} (hx : Fits error Q x)
    (hf : ∀ a, Q a → Fits error R (f a)) : Fits error R (x >>= f) := by
  cases x with
  | ok a => exact hf a hx
  | error e => exact hx

theorem Builtin.intArgs_fits (b : Builtin) (args : List Value) :
    Fits (Error.Ordinary P) (fun _ => True) (b.intArgs args) := by
  fun_induction b.intArgs args with
  | case1 => trivial
  | case2 n args ih => exact ih.bind fun _ _ => trivial
  | case3 other args hother => exact .of_plain nofun nofun

theorem Value.compare_fits (x y : Value) :
    Fits (Error.Ordinary P) (fun _ => True) (x.compare y) := by
  unfold Value.compare
  split
  · trivial
  · split
    · trivial
    · exact .of_plain nofun nofun
  · trivial
  · trivial
  · trivial
  · split
    · trivial
    · exact .of_plain nofun nofun

section

variable {items : List Value}

theorem Value.WellFormed.of_list (h : (Value.list items).WellFormed P) :
    ∀ v ∈ items, v.WellFormed P := by
  cases h with | list h => exact h

theorem Value.WellFormed.of_vector (h : (Value.vector items).WellFormed P) :
    ∀ v ∈ items, v.WellFormed P := by
  cases h with | vector h => exact h

theorem Value.WellFormed.headD (h : ∀ v ∈ items, v.WellFormed P) :
    (items.headD .nil).WellFormed P := by
  cases items with
  | nil => exact .nil
  | cons v _ => exact h v List.mem_cons_self

theorem Collection.wellFormed_conj_list {new : List Value} (hitems : ∀ v ∈ items, v.WellFormed P)
    (hnew : ∀ v ∈ new, v.WellFormed P) :
    ((Collection.list items).conj new).toValue.WellFormed P := by
  refine .list ?_
  induction new generalizing items with
  | nil => exact hitems
  | cons v new ih =>
    obtain ⟨hv, hnew⟩ := List.forall_mem_cons.1 hnew
    exact ih (List.forall_mem_cons.2 ⟨hv, hitems⟩) hnew

theorem Collection.wellFormed_assoc? {index : Nat} {v : Value} {c : Collection}
    (hitems : ∀ w ∈ items, w.WellFormed P) (hv : v.WellFormed P)
    (h : (Collection.vector items).assoc? index v = some c) : c.toValue.WellFormed P := by
  unfold assoc? at h
  dsimp only at h
  split at h
  · cases h
    refine .vector fun w hw => ?_
    rcases List.mem_or_eq_of_mem_set hw with hmem | rfl
    · exact hitems w hmem
    · exact hv
  · split at h
    · cases h
      exact .vector (List.forall_mem_append.2 ⟨hitems, List.forall_mem_singleton.2 hv⟩)
    · cases h

end

/-- The builtins make well-formed values of well-formed ones, and their own errors are not
internal. -/
theorem Builtin.run_fits (b : Builtin) (c : Context) {args : List Value}
    (hargs : ∀ v ∈ args, v.WellFormed P) :
    Fits (Error.Ordinary P) (Value.WellFormed P) (b.run c args) := by
  have hbad : Fits (Error.Ordinary P) (Value.WellFormed P) b.badArguments := .of_plain nofun nofun
  have hfirst {v : Value} {rest : List Value} (h : ∀ w ∈ v :: rest, w.WellFormed P) :
      v.WellFormed P := h v List.mem_cons_self
  unfold Builtin.run
  split
  -- `add` and `sub`
  · exact (intArgs_fits _ _).bind fun _ _ => .int _
  · refine (intArgs_fits _ _).bind fun ns _ => ?_
    split
    · exact .of_plain nofun nofun
    · exact .int _
    · exact .int _
  -- `less` and `equal`
  · exact (Value.compare_fits _ _).bind fun _ _ => .bool _
  · exact .of_plain nofun nofun
  · exact .bool _
  · exact .of_plain nofun nofun
  -- `list`, `vector` and `str`
  · exact .list hargs
  · exact .vector hargs
  · exact .str _
  -- `first` and `rest`
  · exact .nil
  · exact .headD (hfirst hargs).of_list
  · exact .headD (hfirst hargs).of_vector
  · exact .list nofun
  · exact .list fun v hv => (hfirst hargs).of_list v (List.mem_of_mem_tail hv)
  · exact .vector fun v hv => (hfirst hargs).of_vector v (List.mem_of_mem_tail hv)
  -- `cons` and `conj`
  · exact .list (List.forall_mem_singleton.2 (hfirst hargs))
  · obtain ⟨hx, hxs⟩ := List.forall_mem_cons.1 hargs
    exact .list (List.forall_mem_cons.2 ⟨hx, (hfirst hxs).of_list⟩)
  · obtain ⟨hxs, hnew⟩ := List.forall_mem_cons.1 hargs
    exact Collection.wellFormed_conj_list hxs.of_list hnew
  · obtain ⟨hxs, hnew⟩ := List.forall_mem_cons.1 hargs
    exact .vector (List.forall_mem_append.2 ⟨hxs.of_vector, hnew⟩)
  -- `count`
  · exact .int _
  · exact .int _
  · exact .int _
  -- `nth` and `assoc`
  · split
    · next v hv =>
      obtain ⟨index, -, hv⟩ := Option.bind_eq_some_iff.1 hv
      exact (hfirst hargs).of_vector v (List.mem_of_getElem? hv)
    · exact hbad
  · split
    · next collection hassoc =>
      obtain ⟨index, -, hassoc⟩ := Option.bind_eq_some_iff.1 hassoc
      refine Collection.wellFormed_assoc? (hfirst hargs).of_vector ?_ hassoc
      exact hargs _ (by simp)
    · exact hbad
  -- `compare`, `typeName` and `throw`
  · exact (Value.compare_fits _ _).bind fun o _ => by cases o <;> exact .int _
  · exact .str _
  · exact .of_plain nofun nofun
  -- `depth`, `limit` and `echo`
  · exact .int _
  · exact .int _
  · exact .vector hargs
  · exact hbad

theorem admits_standardHost {trimmed : ∀ s, P s → P s.trimmed} {error : Error → Prop}
    {ordinary : ∀ e, e.Ordinary P → error e} :
    (Realm.wellFormed P trimmed error ordinary).Admits standardHost := by
  intro name c args hargs
  change ∀ v ∈ args, v.WellFormed P at hargs
  unfold standardHost
  split
  · next b hb =>
    fun_cases Builtin.reply b c args with
    | case1 f xs =>
      obtain ⟨hf, hxs⟩ := List.forall_mem_cons.1 hargs
      exact ⟨⟨hf, (hxs _ List.mem_cons_self).of_list⟩, fun _ hv => hv⟩
    | case2 f => exact ⟨⟨hargs _ List.mem_cons_self, nofun⟩, fun _ hv => hv⟩
    | case3 b args hlist hnil =>
      rw [Builtin.reply.eq_3 b c args hlist hnil]
      exact (Builtin.run_fits b c hargs).mono ordinary
  · exact ordinary _ (.of_plain nofun nofun)

end

/-! ## No internal errors -/

/-- Well-formed values, whatever their symbols, and errors that are not internal. -/
def Realm.sound : Realm :=
  .wellFormed (fun _ => True) (fun _ _ => trivial) (fun e => ∀ text, e ≠ .internal text)
    fun _ he => he.internal

/-- Over well-formed stores, environments, forms and expressions no run ends in an internal error,
however deep it goes, and what it returns and leaves in the store is again well formed. The host
may be any that keeps values well formed and raises no internal error, and the expression any over
well-formed constants. The same holds at every point of a run that goes on beside the tasks it
starts, and for what these tasks come to. -/
theorem runs_sound {host : Host} (hhost : Realm.sound.Admits host) {a : Analyzer}
    (ha : Realm.sound.Allows a) {env : Env} (henv : env.WellFormed fun _ => True)
    (limit left : Nat) (c : Context) :
    (∀ form : Value, form.WellFormed (fun _ => True) →
      Run.Keeps .sound (a.analyze host limit left env form) (Expr.WellFormed fun _ => True)) ∧
    (∀ form : Value, form.WellFormed (fun _ => True) →
      Run.Keeps .sound ((Level.ofContext host c).expandOnce env form)
        (fun next => ∀ v ∈ next, v.WellFormed fun _ => True) ∧
      Run.Keeps .sound (a.expand host c env form) (Value.WellFormed fun _ => True)) ∧
    (∀ e : Expr, e.WellFormed (fun _ => True) →
      Run.Keeps .sound (eval host limit left env e) (Value.WellFormed fun _ => True)) ∧
    (∀ (f : Value) (args : List Value), f.WellFormed (fun _ => True) →
      (∀ v ∈ args, v.WellFormed fun _ => True) →
      Run.Keeps .sound (apply host c f args) (Value.WellFormed fun _ => True)) ∧
    ∀ (x : Entry) (s : Store) (now : System x.Answer), Realm.sound.entry x → s.Within .sound →
      System.Reaches a host (System.init ⟨a, host, c.limit⟩ c.depth x s) now →
      now.store.Within .sound ∧
      (∀ r, now.main.outcome? = some r →
        Fits (fun e => ∀ text, e ≠ .internal text) (Realm.sound.result x) r) ∧
      ∀ task ∈ now.tasks, ∀ r, task.outcome? = some r →
        Fits (fun e => ∀ text, e ≠ .internal text) (Value.WellFormed fun _ => True) r := by
  have heval (limit left : Nat) (env : Env) (e : Expr) (henv : Realm.sound.env env)
      (he : Realm.sound.expr e) :
      (Guarantee.running .sound).holds (eval host limit left env e) Realm.sound.value :=
    eval_keeps hhost Guarantee.running_define limit left env e henv he
  refine ⟨fun form hform => ?_, fun form hform => ⟨?_, ?_⟩, fun e he => ?_,
    fun f args hf hargs => ?_, fun x s now hx hs hreach => ?_⟩
  · exact Analyzer.analyze_keeps (G := .running .sound) hhost Guarantee.running_define ha limit left
      env form henv hform
  · exact Level.expandOnce_keeps (G := .running .sound) (heval c.limit c.left) henv hform
  · exact Level.expandLoop_keeps (G := .running .sound) (heval c.limit c.left) henv _ form _ hform
  · exact heval limit left env e henv he
  · exact Level.apply_keeps (G := .running .sound) hhost (heval c.limit c.left) hf hargs
  · have hinit : (System.init ⟨a, host, c.limit⟩ c.depth x s).Keeps .sound (Realm.sound.result x) :=
      .init hhost hx hs
    have hnow := hinit.reaches ha hhost hreach
    exact ⟨hnow.store, fun r hr => hnow.main.outcome hr,
      fun task htask r hr => (hnow.tasks task htask).outcome hr⟩

/-- The usual special forms are none of them custom. -/
theorem Realm.allows_standard (W : Realm) : W.Allows .standard := by
  intro name parse hfind
  have hmem := Bindings.mem_of_find?_ofPairs hfind
  simp [Analyzer.builtins] at hmem

/-- A vector literal with more expressions than items. -/
def unevenLiteral : Expr :=
  .vector [.int 7] [.const (.int 1), .fn none none false [⟨[], false, .resolve ⟨none, "x"⟩⟩]]

/-- A frame that binds a function. -/
def unevenFrame : Env :=
  .frame "f" [("x", .fn (.instantiate 0 none none false [⟨[], false, .const (.int 2)⟩] (.root 0)))]
    (.root 0)

theorem runs_sound_uneven :
    unevenFrame.WellFormed (fun _ => True) ∧ unevenLiteral.WellFormed (fun _ => True) ∧
    Run.Keeps .sound (eval standardHost 3 3 unevenFrame unevenLiteral)
      (Value.WellFormed fun _ => True) ∧
    (eval standardHost 3 3 unevenFrame unevenLiteral : Run Value) { nextId := 1 } =
      .ok (.vector [.int 1, .fn (.instantiate 1 none none false
        [⟨[], false, .resolve ⟨none, "x"⟩⟩] unevenFrame)]) { nextId := 2 } := by
  have hframe : unevenFrame.WellFormed fun _ => True := by
    refine .frame _ (List.forall_mem_singleton.2 (.fn _ _ _ ?_ (.root 0))) (.root 0)
    exact .fn _ _ nofun (List.forall_mem_singleton.2 nofun)
      (List.forall_mem_singleton.2 (.const (.int 2)))
  have hliteral : unevenLiteral.WellFormed fun _ => True := by
    refine .vector (List.forall_mem_singleton.2 (.int 7))
      (List.forall_mem_cons.2 ⟨.const (.int 1), List.forall_mem_singleton.2 ?_⟩)
    exact .fn _ _ nofun (List.forall_mem_singleton.2 nofun)
      (List.forall_mem_singleton.2 (.resolve trivial))
  have hsound := runs_sound admits_standardHost Realm.sound.allows_standard hframe 3 3 ⟨0, 3⟩
  exact ⟨hframe, hliteral, hsound.2.2.1 _ hliteral, rfl⟩

end LispCore
