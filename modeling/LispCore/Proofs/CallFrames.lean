import LispCore.Proofs.Grammar

/-!
# Frames of calls

`Closure.Binds` says what a call binds to a name: the surplus arguments, else the argument of the
last positional parameter of that name, else the function itself. The frame in which the body of a
call runs binds exactly that (`Level.applyClosure_frame`).

The frame in which a body is analyzed holds the names of the function and of its parameters as they
are written, the frame in which it runs holds them without surrounding blanks. The two bind the
same names exactly if none of these names has blanks around it (`SpecialForm.definition_frames`).
-/

namespace LispCore

/-! ## Arities -/

namespace Arity

variable {β : Type} {a : Arity β} {argc : Nat}

/-- The argument counts that an arity takes: one for each parameter, or, if the last parameter
takes the surplus, at least one for each of the others. -/
def Takes (a : Arity β) (argc : Nat) : Prop :=
  if a.variadic then a.params.length ≤ argc + 1 else argc = a.params.length

/-- The parameters that take one argument each. -/
def positional (a : Arity β) : List Symbol :=
  if a.variadic then a.params.dropLast else a.params

/-- The parameter that takes the surplus arguments. -/
def rest? (a : Arity β) : Option Symbol :=
  if a.variadic then a.params.getLast? else none

theorem accepts_iff : a.accepts argc = true ↔ a.Takes argc := by
  unfold accepts Takes required
  cases a.variadic <;> simp

instance (a : Arity β) (argc : Nat) : Decidable (a.Takes argc) :=
  decidable_of_iff (a.accepts argc = true) accepts_iff

theorem required_le_length (a : Arity β) : a.required ≤ a.params.length := by
  unfold required
  split <;> omega

theorem Takes.required_le (h : a.Takes argc) : a.required ≤ argc := by
  unfold Takes at h
  unfold required
  split at h
  · next hvariadic => rw [if_pos hvariadic]; omega
  · next hvariadic => rw [if_neg hvariadic]; omega

theorem positional_eq_take (a : Arity β) : a.positional = a.params.take a.required := by
  unfold positional required
  split
  · exact List.dropLast_eq_take
  · exact List.take_length.symm

theorem length_positional (a : Arity β) : a.positional.length = a.required := by
  rw [positional_eq_take, List.length_take, Nat.min_eq_left a.required_le_length]

theorem rest?_eq_head? (h : a.variadic = true) : a.rest? = (a.params.drop a.required).head? := by
  rw [rest?, if_pos h, required, if_pos h, List.head?_drop, List.getLast?_eq_getElem?]

theorem positional_append_rest? (a : Arity β) : a.positional ++ a.rest?.toList = a.params := by
  unfold positional rest?
  split
  · cases hparams : a.params.getLast? with
    | none => simp [List.getLast?_eq_none_iff.1 hparams]
    | some last => exact List.dropLast_append_getLast? last hparams
  · exact List.append_nil a.params

end Arity

/-! ## What a call binds -/

namespace Bindings

variable {α : Type}

/-- Of several pairs with one name the last one counts. -/
theorem find?_ofPairs (pairs : List (String × α)) (n : String) :
    (ofPairs pairs).find? n = (pairs.reverse.find? (·.1 = n)).map (·.2) := by
  suffices go : ∀ b : Bindings α, (pairs.foldl (fun b p => insert p.1 p.2 b) b).find? n =
      ((pairs.reverse.find? (·.1 = n)).map (·.2)).or (b.find? n) from
    (go []).trans (Option.or_none ..)
  induction pairs with
  | nil => exact fun b => rfl
  | cons p rest ih =>
    intro b
    rw [List.foldl_cons, ih, find?_insert, List.reverse_cons, List.find?_append]
    by_cases h : p.1 = n <;> cases rest.reverse.find? (·.1 = n) <;> simp [h]

/-- Pairs that come later are looked at first. -/
theorem find?_ofPairs_append (ps qs : List (String × α)) (n : String) :
    (ofPairs (ps ++ qs)).find? n = ((ofPairs qs).find? n).or ((ofPairs ps).find? n) := by
  rw [find?_ofPairs, find?_ofPairs, find?_ofPairs, List.reverse_append, List.find?_append,
    Option.map_or]

theorem find?_ofPairs_map_iff {β : Type} {g : β → String × α} {xs : List β} {n : String} {v : α} :
    (ofPairs (xs.map g)).find? n = some v ↔
      ∃ before x after, xs = before ++ x :: after ∧ g x = (n, v) ∧ ∀ y ∈ after, (g y).1 ≠ n := by
  rw [find?_ofPairs, ← List.map_reverse, List.find?_map, Option.map_map, Option.map_eq_some_iff]
  constructor
  · rintro ⟨x, hx, rfl⟩
    obtain ⟨hn, after, before, hxs, hafter⟩ := List.find?_eq_some_iff_append.1 hx
    refine ⟨before.reverse, x, after.reverse, ?_, ?_, fun y hy => ?_⟩
    · rw [← List.reverse_reverse xs, hxs]
      simp
    · exact Prod.ext (of_decide_eq_true hn) rfl
    · simpa using hafter y (List.mem_reverse.1 hy)
  · rintro ⟨before, x, after, rfl, hx, hafter⟩
    refine ⟨x, List.find?_eq_some_iff_append.2 ⟨?_, after.reverse, before.reverse, ?_, ?_⟩, ?_⟩
    · simp [hx]
    · simp
    · intro y hy
      simpa using hafter y (List.mem_reverse.1 hy)
    · simp [hx]

theorem find?_ofPairs_map_eq_none_iff {β : Type} {g : β → String × α} {xs : List β} {n : String} :
    (ofPairs (xs.map g)).find? n = none ↔ ∀ x ∈ xs, (g x).1 ≠ n := by
  rw [find?_ofPairs, ← List.map_reverse, List.find?_map, Option.map_map, Option.map_eq_none_iff,
    List.find?_eq_none]
  simp

theorem find?_ofPairs_option_iff {β : Type} {g : β → String × α} {o : Option β} {n : String}
    {v : α} : (ofPairs (o.toList.map g)).find? n = some v ↔ ∃ x ∈ o, g x = (n, v) := by
  cases o with
  | none => simp [ofPairs, find?]
  | some x => simp [ofPairs, insert, find?, Prod.ext_iff]

theorem contains_ofPairs {pairs : List (String × α)} {n : String} :
    (ofPairs pairs).contains n = true ↔ n ∈ pairs.map (·.1) := by
  rw [contains, find?_ofPairs, Option.isSome_map, List.find?_isSome]
  simp

end Bindings

namespace Closure

/-- Where no name is blank, a frame holds each value under its name without surrounding blanks. -/
theorem bindAll_eq {pairs : List (String × Value)}
    (h : ∀ p ∈ pairs, Text.allBlank p.1 = false) :
    bindAll pairs = .ok (.ofPairs (pairs.map fun p => (Text.trim p.1, p.2))) := by
  suffices go : ∀ b : Bindings Value, pairs.foldlM (fun vars p => do
      return Bindings.insert (← bindingName p.1) p.2 vars) b =
        .ok ((pairs.map fun p => (Text.trim p.1, p.2)).foldl (fun b p => b.insert p.1 p.2) b) from
    go []
  induction pairs with
  | nil => exact fun b => rfl
  | cons p rest ih =>
    obtain ⟨hp, hrest⟩ := List.forall_mem_cons.1 h
    intro b
    rw [List.foldlM_cons, bindingName_eq, if_neg (by simp [hp])]
    exact ih hrest (b.insert (Text.trim p.1) p.2)

/-- A blank name at the front is refused. -/
theorem bindAll_of_blank {name : String} (h : Text.allBlank name = true) (v : Value)
    (pairs : List (String × Value)) :
    bindAll ((name, v) :: pairs) = .error (.invalidName name) := by
  unfold bindAll
  rw [List.foldlM_cons]
  dsimp only
  rw [bindingName_eq, if_pos h]
  rfl

/-- The value that a call of `f` with arity `a` binds to the name `n`. -/
inductive Binds (f : Closure) (a : Arity (Option Expr)) (args : List Value) (n : String) :
    Value → Prop where
  | rest {p : Symbol} {v : Value} (hp : p ∈ a.rest?) (hn : Text.trim p.base = n)
      (hv : v = if args.length ≤ a.positional.length then .nil
        else .list (args.drop a.positional.length)) : Binds f a args n v
  | positional {p : Symbol} {v : Value} {before after : List (Symbol × Value)}
      (hrest : ∀ q ∈ a.rest?, Text.trim q.base ≠ n)
      (hzip : a.positional.zip args = before ++ (p, v) :: after) (hn : Text.trim p.base = n)
      (hlast : ∀ q ∈ after, Text.trim q.1.base ≠ n) : Binds f a args n v
  | own {s : Symbol} (hrest : ∀ q ∈ a.rest?, Text.trim q.base ≠ n)
      (hpositional : ∀ p ∈ a.positional, Text.trim p.base ≠ n) (hs : s ∈ f.name)
      (hn : Text.trim s.base = n) : Binds f a args n (.fn f)

variable {f : Closure} {a : Arity (Option Expr)} {args : List Value} {n : String} {v : Value}

theorem restValue_drop (args : List Value) (k : Nat) :
    restValue (args.drop k) = if args.length ≤ k then .nil else .list (args.drop k) := by
  by_cases h : args.length ≤ k
  · rw [if_pos h, List.drop_eq_nil_of_le h]
    rfl
  · rw [if_neg h]
    cases hdrop : args.drop k with
    | nil => exact absurd (List.drop_eq_nil_iff.1 hdrop) h
    | cons w ws => rfl

theorem arguments_eq (f : Closure) (a : Arity (Option Expr)) (args : List Value) :
    f.arguments a args = f.name.toList.map (fun s => (s.base, .fn f)) ++
      ((a.positional.zip args).map (fun p => (p.1.base, p.2)) ++
        a.rest?.toList.map fun p => (p.base, restValue (args.drop a.positional.length))) := by
  unfold arguments
  rw [a.length_positional, a.positional_eq_take, ← List.append_assoc]
  cases hvariadic : a.variadic with
  | true => rw [Arity.rest?_eq_head? hvariadic, if_pos rfl]
  | false => simp [Arity.rest?, hvariadic]

theorem map_fst_zip_positional (h : a.Takes args.length) :
    (a.positional.zip args).map (·.1) = a.positional :=
  List.map_fst_zip (by rw [a.length_positional]; exact h.required_le)

/-- A call that finds all arguments binds the function's name and every parameter. -/
theorem map_fst_arguments (h : a.Takes args.length) :
    (f.arguments a args).map (·.1) = f.name.toList.map (·.base) ++ a.params.map (·.base) := by
  have hpositional :
      (a.positional.zip args).map (fun p => p.1.base) = a.positional.map (·.base) := by
    conv => rhs; rw [← map_fst_zip_positional h, List.map_map]
    rfl
  rw [arguments_eq]
  conv => rhs; rw [← a.positional_append_rest?]
  simp only [List.map_append, List.map_map, Function.comp_def, hpositional]

/-- The frame of a call holds what `Binds` says, and nothing else. -/
theorem find?_arguments_iff (h : a.Takes args.length) :
    Bindings.find? n (.ofPairs ((f.arguments a args).map fun p => (Text.trim p.1, p.2))) = some v ↔
      f.Binds a args n v := by
  have hzip : (∀ p ∈ a.positional.zip args, Text.trim p.1.base ≠ n) ↔
      ∀ p ∈ a.positional, Text.trim p.base ≠ n := by
    conv => rhs; rw [← map_fst_zip_positional h, List.forall_mem_map]
  rw [arguments_eq, restValue_drop]
  simp only [List.map_append, List.map_map, Function.comp_def, Bindings.find?_ofPairs_append,
    Option.or_eq_some_iff, Option.or_eq_none_iff, Bindings.find?_ofPairs_option_iff,
    Bindings.find?_ofPairs_map_eq_none_iff, Option.mem_toList, hzip]
  constructor
  · rintro ((⟨p, hp, hpair⟩ | ⟨hrest, hfound⟩) | ⟨⟨hrest, hpositional⟩, s, hs, hpair⟩)
    · cases hpair
      exact .rest hp rfl rfl
    · obtain ⟨before, ⟨p, w⟩, after, hpairs, hpair, hlast⟩ :=
        Bindings.find?_ofPairs_map_iff.1 hfound
      cases hpair
      exact .positional hrest hpairs rfl hlast
    · cases hpair
      exact .own hrest hpositional hs rfl
  · intro hbinds
    cases hbinds with
    | rest hp hn hv => exact .inl (.inl ⟨_, hp, Prod.ext hn hv.symm⟩)
    | positional hrest hpairs hn hlast =>
      exact .inl (.inr ⟨hrest, Bindings.find?_ofPairs_map_iff.2
        ⟨_, _, _, hpairs, Prod.ext hn rfl, hlast⟩⟩)
    | own hrest hpositional hs hn => exact .inr ⟨⟨hrest, hpositional⟩, _, hs, Prod.ext hn rfl⟩

/-- A function that has its environment and all its bodies, and whose names can all be bound. -/
structure Callable (f : Closure) (env : Env) : Prop where
  env_eq : f.env = some env
  body : ∀ a ∈ f.arities, a.body.isSome
  name : ∀ s ∈ f.name, Text.allBlank s.base = false
  params : ∀ a ∈ f.arities, ∀ s ∈ a.params, Text.allBlank s.base = false

/-- The first arity that takes the arguments is the one that a call uses. -/
theorem findArity?_of_split {before after : List (Arity (Option Expr))} {argc : Nat}
    (hsplit : f.arities = before ++ a :: after) (hbefore : ∀ b ∈ before, ¬ b.Takes argc)
    (ha : a.Takes argc) : f.findArity? argc = some a := by
  refine List.find?_eq_some_iff_append.2 ⟨Arity.accepts_iff.2 ha, before, after, hsplit, ?_⟩
  intro b hb
  rw [Bool.not_eq_true', ← Bool.not_eq_true, Arity.accepts_iff]
  exact hbefore b hb

theorem findArity?_eq_none {argc : Nat} (h : ∀ a ∈ f.arities, ¬ a.Takes argc) :
    f.findArity? argc = none := by
  refine List.find?_eq_none.2 fun a ha => ?_
  simpa [Arity.accepts_iff] using h a ha

section

variable {env : Env} {body : Expr} (henv : f.env = some env) (hbody : a.body = some body)
  (ha : f.findArity? args.length = some a)

include henv hbody ha

/-- Once the arity is found, a call can only fail to bind its arguments. -/
theorem enter_of_arity : f.enter args = (do
    let vars ← bindAll (f.arguments a args)
    return (env.child f.frameName vars, body)) := by
  unfold enter
  rw [ha, henv]
  dsimp only
  rw [hbody]

theorem enter_eq (hname : ∀ s ∈ f.name, Text.allBlank s.base = false)
    (hparams : ∀ s ∈ a.params, Text.allBlank s.base = false) :
    f.enter args = .ok (env.child f.frameName
      (.ofPairs ((f.arguments a args).map fun p => (Text.trim p.1, p.2))), body) := by
  have hbound : ∀ p ∈ f.arguments a args, Text.allBlank p.1 = false :=
    forall_mem_arguments hname (fun s hs _ _ => hparams s hs) hparams
  rw [enter_of_arity henv hbody ha, bindAll_eq hbound]
  rfl

/-- A function whose own name is blank cannot be called. -/
theorem enter_of_blank {own : Symbol} (hown : f.name = some own)
    (hblank : Text.allBlank own.base = true) :
    f.enter args = .error (.invalidName own.base) := by
  rw [enter_of_arity henv hbody ha, arguments_eq, hown]
  exact congrArg (· >>= _) (bindAll_of_blank hblank _ _)

end

end Closure

/-- A call takes the first arity, in the order of their declaration, that takes the number of
arguments, and evaluates its body in a child of the captured environment that binds what
`Closure.Binds` says. If there is none it fails and evaluates nothing. The positional parameters
are among the parameters, and every one of them has its argument. -/
theorem Level.applyClosure_frame {m : Type → Type} [MonadStore m] (lv : Level m) {f : Closure}
    {env : Env} (hf : f.Callable env) (args : List Value) :
    ((∀ a ∈ f.arities, ¬ a.Takes args.length) → lv.applyClosure f args =
      fail (.arity ((f.name.map (·.text)).getD Closure.anonymous) f.aritySummary args.length)) ∧
    ∀ before a after, f.arities = before ++ a :: after →
      (∀ b ∈ before, ¬ b.Takes args.length) → a.Takes args.length →
      a.required ≤ a.params.length ∧ a.required ≤ args.length ∧
      ∃ vars body, a.body = some body ∧
        lv.applyClosure f args = lv.eval (env.child f.frameName vars) body ∧
        ∀ n v, Bindings.find? n vars = some v ↔ f.Binds a args n v := by
  constructor
  · intro hnone
    unfold applyClosure Closure.enter
    rw [Closure.findArity?_eq_none hnone]
  · intro before a after hsplit hbefore ha
    have hmem : a ∈ f.arities := by
      rw [hsplit]
      exact List.mem_append_right before List.mem_cons_self
    obtain ⟨body, hbody⟩ := Option.isSome_iff_exists.1 (hf.body a hmem)
    have henter := Closure.enter_eq hf.env_eq hbody
      (Closure.findArity?_of_split hsplit hbefore ha) hf.name (hf.params a hmem)
    refine ⟨a.required_le_length, ha.required_le, _, body, hbody, ?_, fun n v =>
      Closure.find?_arguments_iff ha⟩
    unfold applyClosure
    rw [henter]

/-- A function with blanks around its name and around a parameter that it has twice. -/
def paddedFn : Closure where
  id := 0
  name := some ⟨none, " me "⟩
  doc := none
  isMacro := false
  arities := [⟨[], false, some (.const .nil)⟩,
    ⟨[⟨none, "x"⟩, ⟨none, " x"⟩, ⟨none, "more"⟩], true, some (.resolve ⟨none, "x"⟩)⟩]
  env := some (.root 0)

/-- Of three arguments the second is `x` and the third is left over; one argument is refused. -/
theorem Level.applyClosure_frame_padded :
    let lv : Level Run := .ofContext standardHost ⟨0, 9⟩
    lv.applyClosure paddedFn [.nil] = fail (.arity " me " "0 or 2+" 1) ∧
    ∃ vars : Bindings Value,
      lv.applyClosure paddedFn [.int 1, .int 2, .int 3] =
        lv.eval ((Env.root 0).child " me " vars) (.resolve ⟨none, "x"⟩) ∧
      vars.find? "x" = some (.int 2) ∧ vars.find? "more" = some (.list [.int 3]) ∧
      vars.find? "me" = some (.fn paddedFn) ∧ vars.find? " me " = none := by
  intro lv
  have hcallable : paddedFn.Callable (.root 0) :=
    ⟨rfl, by decide, by decide, by decide⟩
  obtain ⟨-, happly⟩ := lv.applyClosure_frame hcallable [.int 1, .int 2, .int 3]
  obtain ⟨-, -, vars, body, hbody, hrun, hbinds⟩ := happly [_] _ [] rfl (by decide) (by decide)
  refine ⟨(lv.applyClosure_frame hcallable [.nil]).1 (by decide), vars, ?_, ?_, ?_, ?_, ?_⟩
  · cases hbody
    exact hrun
  · have hpairs : [(⟨none, "x"⟩, .int 1), (⟨none, " x"⟩, .int 2)] =
        [(⟨none, "x"⟩, .int 1)] ++ ((⟨none, " x"⟩, .int 2) :: [] : List (Symbol × Value)) := rfl
    exact (hbinds _ _).2 (.positional (by decide) hpairs (by decide) nofun)
  · exact (hbinds _ _).2 (.rest rfl (by decide) (if_neg (by decide)).symm)
  · exact (hbinds _ _).2 (.own (by decide) (by decide) rfl (by decide))
  · have htrim (name : String) : Text.trim name ≠ " me " := by
      intro h
      have hidem := Text.trim_trim name
      rw [h] at hidem
      exact absurd hidem (by decide)
    refine Option.eq_none_iff_forall_ne_some.2 fun v hv => ?_
    cases (hbinds _ _).1 hv with
    | rest _ hn _ => exact htrim _ hn
    | positional _ _ hn _ => exact htrim _ hn
    | own _ _ _ hn => exact htrim _ hn

/-! ## The frame of the analysis and the frame of the call -/

/-- Whether the innermost frame itself binds a name. -/
def Env.binds : Env → String → Bool
  | .root _, _ => false
  | .frame _ vars _, n => Bindings.contains n vars

theorem binds_shadowFrame_iff {env : Env} {name : Option Symbol} {params : List Symbol}
    {n : String} : (shadowFrame env name params).binds n = true ↔
      n ∈ name.toList.map (·.base) ++ params.map (·.base) := by
  change Bindings.contains n (.ofPairs _) = true ↔ _
  rw [Bindings.contains_ofPairs, List.map_map]
  simp [Function.comp_def]

namespace Closure

variable {f : Closure} {a : Arity (Option Expr)} {args : List Value}

theorem takes_of_findArity? {argc : Nat} (h : f.findArity? argc = some a) : a.Takes argc :=
  Arity.accepts_iff.1 (List.find?_some (p := fun b => Arity.accepts b argc) h)

/-- A call binds the names that the analysis of the body has shadowed, without the blanks around
them. -/
theorem binds_frame_iff (ha : f.findArity? args.length = some a) (env captured : Env)
    (n : String) :
    (captured.child f.frameName
        (.ofPairs ((f.arguments a args).map fun p => (Text.trim p.1, p.2)))).binds n = true ↔
      ∃ k, (shadowFrame env f.name a.params).binds k = true ∧ Text.trim k = n := by
  change Bindings.contains n (.ofPairs _) = true ↔ _
  simp only [binds_shadowFrame_iff, Bindings.contains_ofPairs,
    ← map_fst_arguments (takes_of_findArity? ha), List.map_map, List.mem_map, Function.comp_apply]
  constructor
  · rintro ⟨p, hp, hn⟩
    exact ⟨p.1, ⟨p, hp, rfl⟩, hn⟩
  · rintro ⟨_, ⟨p, hp, rfl⟩, hn⟩
    exact ⟨p, hp, hn⟩

end Closure

/-- Names without their surrounding blanks are the same names exactly if they have none. -/
theorem Text.trimmed_names_iff {P Q : String → Prop} (h : ∀ n, Q n ↔ ∃ k, P k ∧ trim k = n) :
    (∀ n, Q n ↔ P n) ↔ ∀ k, P k → trim k = k := by
  constructor
  · intro hsame k hk
    obtain ⟨k', -, rfl⟩ := (h k).1 ((hsame k).2 hk)
    exact trim_trim k'
  · intro htrim n
    rw [h]
    constructor
    · rintro ⟨k, hk, rfl⟩
      rwa [htrim k hk]
    · exact fun hn => ⟨n, hn, htrim n hn⟩

namespace SpecialForm

/-- Of a definition that analysis accepts, each body is analyzed in a frame that binds the names of
the function and of its parameters as they are written, and a call runs it in a frame that binds
them without surrounding blanks. So the two frames bind the same names exactly if no name has blanks
around it. A call fails by itself only if the function's own name is blank. -/
theorem definition_frames (a : Analyzer) (host : Host) (limit left : Nat) (env : Env)
    (isMacro : Bool) (args : List Value) {s t : Store} {e : Expr}
    (h : ((definition isMacro).analyze (a.analyze host limit left) a.spawnPolicy env args :
      Run Expr) s = .ok e t) :
    ∃ name doc clauses arities, e = .fn name doc isMacro arities ∧
      List.Forall₂ (Clause.Analyzed (a.analyze host limit left) env name) clauses arities ∧
      ∀ (id : Nat) (captured : Env) (given : List Value) (chosen : Arity (Option Expr)),
        let f := Closure.instantiate id name doc isMacro arities captured
        f.findArity? given.length = some chosen →
        ∃ body, chosen.body = some body ∧
          ⟨chosen.params, chosen.variadic, body⟩ ∈ arities ∧
          let shadow := shadowFrame env name chosen.params
          (∀ own ∈ name, Text.allBlank own.base = true →
            f.enter given = .error (.invalidName own.base)) ∧
          ((∀ own ∈ name, Text.allBlank own.base = false) → ∃ frame,
            f.enter given = .ok (frame, body) ∧ frame.parent? = some captured ∧
            (∀ n, frame.binds n = true ↔ ∃ k, shadow.binds k = true ∧ Text.trim k = n) ∧
            ((∀ n, frame.binds n = true ↔ shadow.binds n = true) ↔
              ∀ k, shadow.binds k = true → Text.trim k = k)) := by
  rw [analyze_definition] at h
  obtain ⟨name, doc, clauses, arities, hwritten, rfl, hanalyzed⟩ := analyzeFn_eq_ok h
  refine ⟨name, doc, clauses, arities, rfl, hanalyzed, fun id captured given chosen => ?_⟩
  intro f hchosen
  obtain ⟨arity, harity, rfl⟩ := List.mem_map.1 (List.mem_of_find?_eq_some hchosen)
  obtain ⟨c, hc, hparams⟩ := exists_of_mem_right hanalyzed harity
  refine ⟨arity.body, rfl, harity, fun own hown hblank => ?_, fun hname => ?_⟩
  · exact Closure.enter_of_blank rfl rfl hchosen hown hblank
  · have hproper : ∀ p ∈ arity.params, Text.allBlank p.base = false := by
      intro p hp
      rw [hparams.params_eq] at hp
      exact (hwritten.proper c hc p hp).named
    have hbinds := Closure.binds_frame_iff hchosen env captured
    exact ⟨_, Closure.enter_eq rfl rfl hchosen hname hproper, rfl, hbinds,
      Text.trimmed_names_iff hbinds⟩

/-- The two frames of `(fn me [x & more] x)`, called with one argument, bind the same names. -/
theorem definition_frames_me :
    let params : List Symbol := [⟨none, "x"⟩, ⟨none, "more"⟩]
    let body : Expr := .block [.resolve ⟨none, "x"⟩]
    let f := Closure.instantiate 0 (some ⟨none, "me"⟩) none false [⟨params, true, body⟩] (.root 0)
    ∃ frame, f.enter [.int 1] = .ok (frame, body) ∧
      ∀ n, frame.binds n = true ↔
        (shadowFrame (.root 0) (some ⟨none, "me"⟩) params).binds n = true := by
  intro params body f
  have hrun : ((definition false).analyze (Analyzer.standard.analyze standardHost 9 3) .detach
      (.root 0) [.symbol ⟨none, "me"⟩,
        .vector [.symbol ⟨none, "x"⟩, .symbol ⟨none, "&"⟩, .symbol ⟨none, "more"⟩],
        .symbol ⟨none, "x"⟩] : Run Expr) {} =
      .ok (.fn (some ⟨none, "me"⟩) none false [⟨params, true, body⟩]) {} := by cbv
  obtain ⟨name, doc, clauses, arities, he, -, hcalls⟩ :=
    definition_frames .standard standardHost 9 3 (.root 0) false _ hrun
  cases he
  obtain ⟨_, hbody, -, -, hcall⟩ := hcalls 0 (.root 0) [.int 1] _ rfl
  cases hbody
  obtain ⟨frame, henter, -, -, hsame⟩ := hcall (by decide)
  refine ⟨frame, henter, hsame.2 fun k hk => ?_⟩
  have hnames : k ∈ ["me", "x", "more"] := binds_shadowFrame_iff.1 hk
  simp only [List.mem_cons, List.not_mem_nil, or_false] at hnames
  rcases hnames with rfl | rfl | rfl <;> decide

/-- A macro without parameters that turns its calls into 42. -/
def constantMacro : Closure where
  id := 0
  name := none
  doc := none
  isMacro := true
  arities := [⟨[], false, some (.const (.int 42))⟩]
  env := some (.root 0)

/-- A parameter with blanks around it does not hide the macro `m` from the analysis of
`(fn [" m "] (m))`, although calls bind it under the name `m`. -/
theorem definition_frames_differ :
    let s : Store := { roots := [⟨"user", [("user", [("m", .fn constantMacro)])]⟩] }
    let arity : Arity Expr := ⟨[⟨none, " m "⟩], false, .block [.const (.int 42)]⟩
    let f := Closure.instantiate 1 none none false [arity] (.root 0)
    ((definition false).analyze (Analyzer.standard.analyze standardHost 9 5) .detach (.root 0)
        [.vector [.symbol ⟨none, " m "⟩], .list [.symbol ⟨none, "m"⟩]] : Run Expr) s =
      .ok (.fn none none false [arity]) s ∧
    (shadowFrame (.root 0) none arity.params).binds "m" = false ∧
    ∃ frame, f.enter [.nil] = .ok (frame, arity.body) ∧ frame.binds "m" = true := by
  intro s arity f
  have hproper : ∀ p ∈ arity.params, Text.allBlank p.base = false := by
    rintro p (_ | ⟨_, ⟨⟩⟩)
    decide
  exact ⟨by cbv, by decide, _, Closure.enter_eq rfl rfl rfl nofun hproper, by decide⟩

end SpecialForm

end LispCore
