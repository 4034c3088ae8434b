import LispCore.Proofs.MacroFree
import LispCore.Proofs.VectorLiterals

/-!
# The nesting of forms

Analysis goes one level down for each form inside a form that it has to analyze, and not for what it
takes as it is: quoted data, the name of a definition, parameter vectors and the lists that clauses
are. `Value.levels` counts this on the form alone. Where no macro is bound, analysis of a form
without misused special forms succeeds exactly if that many levels are left
(`Analyzer.analyze_depth_exact`).
-/

namespace LispCore

/-! ## Counting levels -/

/-- A clause that is not faulty is a list that starts with a parameter vector. -/
theorem Clause.exists_of_not_faulty {clause : Value} (h : ¬ Clause.Faulty clause) :
    ∃ params body, clause = .list (.vector params :: body) := by
  simp only [Faulty, not_forall] at h
  obtain ⟨c, hclause, -⟩ := h
  unfold ofForm at hclause
  split at hclause
  · exact ⟨_, _, rfl⟩
  · cases hclause
  · cases hclause

namespace Value

/-- The name of a symbol without namespace. -/
def plainName? : Value → Option String
  | .symbol ⟨none, name⟩ => some name
  | _ => none

mutual

/-- The levels that the analysis of a form takes. -/
def levels : Value → Nat
  | .list (head :: args) => 1 + match head.plainName? with
    | some "quote" => 0
    | some "def" => valueLevels args
    | some "fn" | some "macro" => bodyLevels args
    | some "do" | some "if" | some "go" => maxLevels args
    | _ => max (levels head) (maxLevels args)
  | .vector items => 1 + maxLevels items
  | _ => 1

def maxLevels : List Value → Nat
  | [] => 0
  | form :: forms => max (levels form) (maxLevels forms)

/-- A definition analyzes what follows its name. -/
def valueLevels : List Value → Nat
  | [] => 0
  | _ :: value => maxLevels value

/-- A function analyzes what follows its parameter vector, or the one of each of its clauses. -/
def bodyLevels : List Value → Nat
  | [] => 0
  | .vector _ :: body => maxLevels body
  | .list (.vector _ :: body) :: clauses => max (maxLevels body) (bodyLevels clauses)
  | _ :: rest => bodyLevels rest

end

theorem levels_pos (form : Value) : 0 < form.levels := by
  unfold levels
  split <;> omega

variable {n : Nat}

theorem maxLevels_le_iff {forms : List Value} :
    maxLevels forms ≤ n ↔ ∀ form ∈ forms, form.levels ≤ n := by
  induction forms with
  | nil => simp [maxLevels]
  | cons form forms ih => rw [maxLevels, Nat.max_le, ih, List.forall_mem_cons]

/-- A vector takes one level more than its items. -/
theorem levels_vector_le_iff {items : List Value} :
    (Value.vector items).levels ≤ n + 1 ↔ ∀ item ∈ items, item.levels ≤ n := by
  rw [levels, Nat.add_comm 1, Nat.succ_le_succ_iff, maxLevels_le_iff]

/-- In clauses that are none of them faulty only the bodies count. -/
theorem bodyLevels_clauses_le_iff {clauses : List Value} (h : ∀ c ∈ clauses, ¬ Clause.Faulty c) :
    bodyLevels clauses ≤ n ↔ ∀ part ∈ clauses.flatMap Clause.bodyOf, part.levels ≤ n := by
  induction clauses with
  | nil => simp [bodyLevels]
  | cons clause clauses ih =>
    obtain ⟨hclause, hclauses⟩ := List.forall_mem_cons.1 h
    obtain ⟨params, body, rfl⟩ := Clause.exists_of_not_faulty hclause
    rw [bodyLevels, Nat.max_le, maxLevels_le_iff, ih hclauses, List.flatMap_cons,
      List.forall_mem_append]
    rfl

theorem bodyLevels_takeName (args : List Value) :
    bodyLevels (FnForm.takeName args).2 = bodyLevels args := by
  unfold FnForm.takeName
  split <;> rfl

theorem bodyLevels_takeDoc (args : List Value) :
    bodyLevels (FnForm.takeDoc args).2 = bodyLevels args := by
  unfold FnForm.takeDoc
  split <;> rfl

/-- A name and a documentation string in front do not count. -/
theorem bodyLevels_of_parse {args : List Value} {f : FnForm} (h : FnForm.parse args = .ok f) :
    bodyLevels f.clauses = bodyLevels args := by
  rw [← bodyLevels_takeName args, ← bodyLevels_takeDoc (FnForm.takeName args).2]
  unfold FnForm.parse at h
  dsimp only at h
  split at h
  · cases h
  · next params body hrest =>
    cases h
    rw [hrest]
    simp [bodyLevels]
  · cases h
    rfl

theorem bodyLevels_le_iff {args : List Value} (h : ¬ FnForm.Faulty args) :
    bodyLevels args ≤ n ↔ ∀ part ∈ FnForm.bodies args, part.levels ≤ n := by
  simp only [FnForm.Faulty, not_forall, not_exists, not_and] at h
  obtain ⟨f, hparse, hclauses⟩ := h
  rw [← bodyLevels_of_parse hparse, bodyLevels_clauses_le_iff hclauses, FnForm.bodies, hparse]

end Value

/-! ## The usual special forms -/

namespace Analyzer

variable {head : Value} {args : List Value} {n : Nat}

theorem special?_eq (a : Analyzer) (head : Value) :
    a.special? head = head.plainName?.bind a.specials.find? := by
  unfold special? Value.plainName?
  split
  · next symbol =>
    obtain ⟨space, base⟩ := symbol
    cases space <;> rfl
  · next hsymbol =>
    split
    · next name => exact absurd rfl (hsymbol ⟨none, name⟩)
    · rfl

/-- A special form takes one level more than the parts that it analyzes. -/
theorem levels_special_le_iff {form : SpecialForm} (hspecial : standard.special? head = some form)
    (hused : ¬ form.Misused args) :
    (Value.list (head :: args)).levels ≤ n + 1 ↔ ∀ part ∈ form.parts args, part.levels ≤ n := by
  rw [special?_eq, Option.bind_eq_some_iff] at hspecial
  obtain ⟨name, hplain, hform⟩ := hspecial
  have hmem := Bindings.mem_of_find?_ofPairs hform
  simp only [builtins, List.mem_cons, List.not_mem_nil, or_false, Prod.mk.injEq] at hmem
  rw [Value.levels, hplain, Nat.add_comm 1, Nat.succ_le_succ_iff]
  rcases hmem with ⟨rfl, rfl⟩ | ⟨rfl, rfl⟩ | ⟨rfl, rfl⟩ | ⟨rfl, rfl⟩ | ⟨rfl, rfl⟩ | ⟨rfl, rfl⟩ |
    ⟨rfl, rfl⟩
  · exact Value.maxLevels_le_iff
  · exact Value.maxLevels_le_iff
  · cases args with
    | nil => simp [Value.valueLevels, SpecialForm.parts]
    | cons name value => exact Value.maxLevels_le_iff
  · exact Value.bodyLevels_le_iff hused
  · exact Value.bodyLevels_le_iff hused
  · simp [SpecialForm.parts]
  · exact Value.maxLevels_le_iff

/-- A call takes one level more than its head and its arguments. -/
theorem levels_call_le_iff (hspecial : standard.special? head = none) :
    (Value.list (head :: args)).levels ≤ n + 1 ↔ ∀ part ∈ head :: args, part.levels ≤ n := by
  have hname (name : String) (hplain : head.plainName? = some name) :
      standard.specials.find? name = none := by
    rw [special?_eq, hplain] at hspecial
    exact hspecial
  have hlevels : (Value.list (head :: args)).levels =
      1 + max head.levels (Value.maxLevels args) := by
    rw [Value.levels]
    -- each name that is told apart is one of a special form
    split
    case h_8 => rfl
    all_goals next hplain => cases hname _ hplain
  rw [hlevels, Nat.add_comm 1, Nat.succ_le_succ_iff, Nat.max_le, Value.maxLevels_le_iff,
    List.forall_mem_cons]

end Analyzer

/-! ## Analysis of the parts -/

section

variable {s : Store} {deeper : Env → Value → Run Expr} {env : Env} {p : Value → Prop} {e : Error}

theorem expectCount_of_le {form : String} {least most : Nat} {args : List Value}
    (h : least ≤ args.length ∧ args.length ≤ most) :
    (expectCount form least most args : Run Unit) s = .ok () s := by
  unfold expectCount
  rw [if_pos (by simpa using h)]
  rfl

/-- Inner forms are analyzed on a condition wherever no macro is bound. -/
def AnalyzesIff (p : Value → Prop) (e : Error) (s : Store) (deeper : Env → Value → Run Expr)
    (forms : List Value) : Prop :=
  ∀ env : Env, env.MacroFreeIn s → ∀ form ∈ forms,
    Run.SucceedsIff (p form) e s (deeper env form) fun _ => True

theorem AnalyzesIff.mapM {forms : List Value} (h : AnalyzesIff p e s deeper forms)
    (henv : env.MacroFreeIn s) :
    Run.SucceedsIff (∀ form ∈ forms, p form) e s (forms.mapM (deeper env)) fun _ => True :=
  .mapM_self (h env henv)

theorem AnalyzesIff.clause {clause : Value} (h : AnalyzesIff p e s deeper (Clause.bodyOf clause))
    (henv : env.MacroFreeIn s) (hclause : ¬ Clause.Faulty clause) (form : String)
    (name : Option Symbol) :
    Run.SucceedsIff (∀ part ∈ Clause.bodyOf clause, p part) e s
      (analyzeClause deeper form env name clause) fun _ => True := by
  simp only [Clause.Faulty, not_forall, not_exists] at hclause
  obtain ⟨c, hofForm, hparams⟩ := hclause
  have hbody : Clause.bodyOf clause = c.body := by rw [Clause.bodyOf, hofForm]
  cases hparse : Params.parse c.params with
  | error fault => exact absurd hparse (hparams fault)
  | ok parsed =>
    rw [hbody] at h ⊢
    have hshadow := henv.shadow name parsed.1
    unfold analyzeClause
    simp only [hofForm, checked, pure_bind, hparse]
    exact (h.mapM hshadow).map fun _ _ => trivial

theorem AnalyzesIff.fn {args : List Value} (h : AnalyzesIff p e s deeper (FnForm.bodies args))
    (henv : env.MacroFreeIn s) (hargs : ¬ FnForm.Faulty args) (form : String) (isMacro : Bool) :
    Run.SucceedsIff (∀ part ∈ FnForm.bodies args, p part) e s
      (analyzeFn deeper form isMacro env args) fun _ => True := by
  simp only [FnForm.Faulty, not_forall, not_exists, not_and] at hargs
  obtain ⟨f, hparse, hclauses⟩ := hargs
  have hbodies : FnForm.bodies args = f.clauses.flatMap Clause.bodyOf := by
    rw [FnForm.bodies, hparse]
  have hclause (c : Value) (hc : c ∈ f.clauses) :
      Run.SucceedsIff (∀ part ∈ Clause.bodyOf c, p part) e s
        (analyzeClause deeper form env f.name c) fun _ => True := by
    refine AnalyzesIff.clause (fun env henv part hpart => ?_) henv (hclauses c hc) form f.name
    refine h env henv part ?_
    rw [hbodies]
    exact List.mem_flatMap.2 ⟨c, hc, hpart⟩
  unfold analyzeFn
  simp only [hparse, checked, pure_bind]
  refine ((Run.SucceedsIff.mapM_self hclause).map fun _ _ => trivial).congr ?_ rfl
  rw [hbodies, List.forall_mem_flatMap]

/-- A usual special form that is not misused is analyzed exactly if its parts are. -/
theorem AnalyzesIff.special {form : SpecialForm} {args : List Value}
    (h : AnalyzesIff p e s deeper (form.parts args)) (henv : env.MacroFreeIn s)
    (husual : ∀ parse, form ≠ .custom parse) (hused : ¬ form.Misused args) (policy : SpawnPolicy) :
    Run.SucceedsIff (∀ part ∈ form.parts args, p part) e s (form.analyze deeper policy env args)
      fun _ => True := by
  cases form with
  | block => exact (h.mapM henv).map fun _ _ => trivial
  | cond =>
    have hcount : 2 ≤ args.length ∧ args.length ≤ 3 := not_not.1 hused
    refine Run.SucceedsIff.congr ?_ Iff.rfl (Run.bind_of_ok (expectCount_of_le hcount))
    exact (h.mapM henv).map fun _ _ => trivial
  | define =>
    simp only [SpecialForm.Misused, not_or, not_not, not_forall] at hused
    obtain ⟨hcount, symbol, hhead⟩ := hused
    obtain ⟨value, rfl⟩ := List.head?_eq_some_iff.1 hhead
    refine Run.SucceedsIff.congr ?_ Iff.rfl (Run.bind_of_ok (expectCount_of_le hcount))
    exact (h.mapM henv).map fun _ _ => trivial
  | function => exact h.fn henv hused "fn" false
  | expander => exact h.fn henv hused "macro" true
  | quote =>
    obtain ⟨arg, rfl⟩ := List.length_eq_one_iff.1 (not_not.1 hused)
    refine Run.SucceedsIff.congr ?_ Iff.rfl
      (Run.bind_of_ok (expectCount_of_le ⟨Nat.le_refl 1, Nat.le_refl 1⟩))
    exact .pure (List.forall_mem_nil p) trivial
  | go =>
    obtain ⟨arg, rfl⟩ := List.length_eq_one_iff.1 (not_not.1 hused)
    refine Run.SucceedsIff.congr ?_ List.forall_mem_singleton.symm
      (Run.bind_of_ok (expectCount_of_le ⟨Nat.le_refl 1, Nat.le_refl 1⟩))
    exact (h env henv arg List.mem_cons_self).map fun _ _ => trivial
  | custom parse => exact absurd rfl (husual parse)

end

namespace Analyzer

/-- Where no macro is bound, a form that is not malformed is analyzed exactly if enough levels are
left. -/
theorem analyze_succeedsIff {a : Analyzer} (ha : a.specials = standard.specials) (host : Host)
    (limit left : Nat) {s : Store} {env : Env} (henv : env.MacroFreeIn s) {form : Value}
    (hform : ¬ a.Malformed form) :
    Run.SucceedsIff (form.levels ≤ left) (.depthExceeded limit) s
      (a.analyze host limit left env form) fun _ => True := by
  have hstandard (head : Value) : standard.special? head = a.special? head := by
    rw [special?_eq, special?_eq, ha]
  -- on the levels left, for all environments: bodies are analyzed in frames of their own
  induction left generalizing env form with
  | zero => exact .fail (Nat.not_le.2 form.levels_pos)
  | succ left ih =>
    have hparts {forms : List Value} (hforms : ∀ part ∈ forms, ¬ a.Malformed part) :
        AnalyzesIff (·.levels ≤ left) (.depthExceeded limit) s (a.analyze host limit left) forms :=
      fun env henv part hpart => ih henv (hforms part hpart)
    have hone : 1 ≤ left + 1 := Nat.succ_pos left
    cases form with
    | list items =>
      cases items with
      | nil => exact .congr (.pure hone trivial) Iff.rfl (analyze_of_not_call rfl)
      | cons head args =>
        have hanalyze := a.analyze_list_macroFree host limit left henv head args
        cases hspecial : a.special? head with
        | some special =>
          rw [hspecial] at hanalyze
          have hused : ¬ special.Misused args := fun h => hform (.misused hspecial h)
          have hinner := hparts fun part hpart h => hform (.inSpecial hspecial hpart h)
          have hform := (hstandard head).trans hspecial
          refine (hinner.special henv (standard_isUsual.ne_custom hform) hused a.spawnPolicy).congr
            ?_ hanalyze
          exact (levels_special_le_iff hform hused).symm
        | none =>
          rw [hspecial] at hanalyze
          have hinner := hparts fun part hpart h => hform (.inCall hspecial hpart h)
          have hhead := hinner env henv head List.mem_cons_self
          have hargs := AnalyzesIff.mapM
            (fun env henv part hpart => hinner env henv part (List.mem_cons_of_mem head hpart)) henv
          refine (hhead.bind fun _ _ => hargs.map fun _ _ => trivial).congr ?_ hanalyze
          rw [levels_call_le_iff ((hstandard head).trans hspecial), List.forall_mem_cons]
    | vector items =>
      cases items with
      | nil => exact .congr (.pure hone trivial) Iff.rfl (analyze_of_not_call rfl)
      | cons item items =>
        have hinner := hparts fun part hpart h => hform (.inVector hpart h)
        exact ((hinner.mapM henv).map fun _ _ => trivial).congr Value.levels_vector_le_iff.symm
          (a.analyze_vector_macroFree host limit left henv item items)
    | _ => exact .congr (.pure hone trivial) Iff.rfl (analyze_of_not_call rfl)

/-- With the usual special forms, from any depth and in any environment without macros, the analysis
of a form without misused special forms succeeds exactly if the depth and the levels of the form
together are within the limit, and otherwise it fails with that limit; it never changes the store. -/
theorem analyze_depth_exact {a : Analyzer} (ha : a.specials = standard.specials) (host : Host)
    (c : Context) {s : Store} {env : Env} (henv : env.MacroFreeIn s) {form : Value}
    (hform : ¬ a.Malformed form) :
    (c.depth + form.levels ≤ c.limit →
      ∃ e, (a.analyze host c.limit c.left env form : Run Expr) s = .ok e s) ∧
    (¬ c.depth + form.levels ≤ c.limit →
      (a.analyze host c.limit c.left env form : Run Expr) s =
        .error (.depthExceeded c.limit) s) := by
  have hpos := form.levels_pos
  have hleft : form.levels ≤ c.left ↔ c.depth + form.levels ≤ c.limit := by
    unfold Context.left
    omega
  obtain ⟨hsucceeds, hfails⟩ := analyze_succeedsIff ha host c.limit c.left henv hform
  rw [hleft] at hsucceeds hfails
  refine ⟨fun hfits => ?_, hfails⟩
  obtain ⟨e, hok, -⟩ := hsucceeds hfits
  exact ⟨e, hok⟩

/-- The form `(fn me "doc" ([x] (quote ((x)))) ([& more] (do (def y [(if more 1)]) (go (me)))))`. -/
def twoClauses : Value :=
  let word (name : String) : Value := .symbol (.ofBase name)
  .list [word "fn", word "me", .str "doc",
    .list [.vector [word "x"], .list [word "quote", .list [.list [word "x"]]]],
    .list [.vector [word "&", word "more"],
      .list [word "do",
        .list [word "def", word "y", .vector [.list [word "if", word "more", .int 1]]],
        .list [word "go", .list [word "me"]]]]]

/-- The second clause is the deeper one, by the test of its `if`. From depth 2 the limit 8 lets the
analysis reach it, and the limit 7 does not. -/
theorem analyze_depth_exact_twoClauses :
    let s : Store := { roots := [Globals.ofNamespace "user"] }
    twoClauses.levels = 6 ∧
    (∃ e, (standard.analyze standardHost 8 6 (.root 0) twoClauses : Run Expr) s = .ok e s) ∧
    (standard.analyze standardHost 7 5 (.root 0) twoClauses : Run Expr) s =
      .error (.depthExceeded 7) s := by
  intro s
  have hfree : (Env.root 0).MacroFreeIn s := Globals.macroFree_of_all (by decide)
  have hform : ¬ standard.Malformed twoClauses := by
    have hanswer : (Run.answer (standard.analyze standardHost 9 9 (.root 0) twoClauses) s).isOk =
        true := by cbv
    intro h
    obtain ⟨e, he⟩ := h.failsAt standard_isUsual standardHost 9 9 hfree
    unfold Run.answer at hanswer
    rw [he] at hanswer
    cases hanswer
  have hlevels : twoClauses.levels = 6 := rfl
  obtain ⟨hfits, -⟩ := analyze_depth_exact rfl standardHost ⟨2, 8⟩ hfree hform
  obtain ⟨-, hexceeds⟩ := analyze_depth_exact rfl standardHost ⟨2, 7⟩ hfree hform
  rw [hlevels] at hfits hexceeds
  exact ⟨hlevels, hfits (by decide), hexceeds (by decide)⟩

end Analyzer

end LispCore
