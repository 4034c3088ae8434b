import LispCore.Proofs.Expansion
import LispCore.Proofs.Outcomes

/-!
# The grammar of function definitions

`Params.Written` and `FnForm.Written` say how parameter vectors and whole definitions are written,
without a word on how they are parsed. Parsing accepts exactly what is written so
(`Params.parse_eq_ok_iff`, `FnForm.written_iff`), and so does analysis, as long as the forms of the
bodies can be analyzed: it yields one arity for each clause, and anything else it refuses as a
malformed special form (`SpecialForm.definition_grammar`).
-/

namespace LispCore

section

variable {α β γ : Type} {R : α → β → Prop} {S : β → γ → Prop} {xs : List α} {ys : List β}

theorem exists_of_mem_right (h : List.Forall₂ R xs ys) {y : β} (hy : y ∈ ys) :
    ∃ x ∈ xs, R x y := by
  induction h with
  | nil => cases hy
  | cons hxy _ ih =>
    rcases List.mem_cons.1 hy with rfl | hy
    · exact ⟨_, List.mem_cons_self, hxy⟩
    · obtain ⟨x, hx, hxy⟩ := ih hy
      exact ⟨x, List.mem_cons_of_mem _ hx, hxy⟩

theorem exists_forall₂ {zs : List γ} (h : List.Forall₂ (fun x z => ∃ y, R x y ∧ S y z) xs zs) :
    ∃ ys, List.Forall₂ R xs ys ∧ List.Forall₂ S ys zs := by
  induction h with
  | nil => exact ⟨[], .nil, .nil⟩
  | cons hxz _ ih =>
    obtain ⟨y, hxy, hyz⟩ := hxz
    obtain ⟨ys, hxs, hzs⟩ := ih
    exact ⟨y :: ys, .cons hxy hxs, .cons hyz hzs⟩

end

/-! ## Parameter vectors -/

namespace Params

/-- A symbol that can stand for a parameter. -/
structure Proper (s : Symbol) : Prop where
  unqualified : s.space = none
  named : Text.allBlank s.base = false
  unmarked : s.base ≠ restMarker

/-- The items of a parameter vector, the parameters that they name, and whether the last of them
takes the surplus arguments. -/
inductive Written : List Value → List Symbol → Bool → Prop where
  | fixed {params : List Symbol} (hparams : ∀ s ∈ params, Proper s) :
    Written (params.map .symbol) params false
  | rest {params : List Symbol} {last : Symbol} (hparams : ∀ s ∈ params, Proper s)
      (hlast : Proper last) :
    Written (params.map .symbol ++ [.symbol (.ofBase restMarker), .symbol last])
      (params ++ [last]) true

variable {v : Value} {vs items : List Value} {s : Symbol} {params : List Symbol} {variadic : Bool}

theorem symbol?_eq_ok_iff :
    symbol? v = .ok s ↔ v = .symbol s ∧ s.space = none ∧ Text.allBlank s.base = false := by
  cases v with
  | symbol s' =>
    have hcheck : (!s'.isQualified && s'.isValid) = true ↔
        s'.space = none ∧ Text.allBlank s'.base = false := by
      simp [Name.isQualified, Name.isValid]
    rw [show symbol? (.symbol s') = if !s'.isQualified && s'.isValid then .ok s'
      else .error (.notParameter (Value.symbol s').display) from rfl]
    constructor
    · intro h
      split at h
      · next hs =>
        obtain rfl := Except.ok.inj h
        exact ⟨rfl, hcheck.1 hs⟩
      · cases h
    · rintro ⟨heq, hs⟩
      obtain rfl := Value.symbol.inj heq
      exact if_pos (hcheck.2 hs)
  | _ => simp [symbol?]

theorem rest_eq_ok_iff : rest vs = .ok s ↔ vs = [.symbol s] ∧ Proper s := by
  constructor
  · intro h
    unfold rest at h
    split at h
    · next v =>
      cases hv : symbol? v with
      | error fault => rw [hv] at h; cases h
      | ok s' =>
        rw [hv] at h
        change (if s'.base = restMarker then _ else _) = _ at h
        split at h
        · cases h
        · next hne =>
          cases h
          obtain ⟨rfl, hspace, hnamed⟩ := symbol?_eq_ok_iff.1 hv
          exact ⟨rfl, hspace, hnamed, hne⟩
    · cases h
  · rintro ⟨rfl, hs⟩
    rw [rest, symbol?_eq_ok_iff.2 ⟨rfl, hs.unqualified, hs.named⟩]
    exact if_neg hs.unmarked

theorem parse_marker (vs : List Value) :
    parse (.symbol (.ofBase restMarker) :: vs) = (rest vs).map fun s => ([s], true) := by
  have hmarker : symbol? (.symbol (.ofBase restMarker)) = .ok (.ofBase restMarker) :=
    symbol?_eq_ok_iff.2 ⟨rfl, rfl, by decide⟩
  rw [parse, hmarker]
  cases rest vs <;> rfl

theorem parse_proper (hs : Proper s) (vs : List Value) :
    parse (.symbol s :: vs) = (parse vs).map fun p => (s :: p.1, p.2) := by
  rw [parse, symbol?_eq_ok_iff.2 ⟨rfl, hs.unqualified, hs.named⟩]
  change (if s.base = restMarker then _ else _) = _
  rw [if_neg hs.unmarked]
  cases parse vs <;> rfl

/-- The first item of what can be parsed is the marker or a parameter. -/
theorem head_of_parse (h : parse (v :: vs) = .ok (params, variadic)) :
    v = .symbol (.ofBase restMarker) ∨ ∃ s, v = .symbol s ∧ Proper s := by
  cases hv : symbol? v with
  | error fault => rw [parse, hv] at h; cases h
  | ok s =>
    obtain ⟨rfl, hspace, hnamed⟩ := symbol?_eq_ok_iff.1 hv
    by_cases hmarker : s.base = restMarker
    · obtain ⟨⟨space, base⟩⟩ := s
      cases hspace
      cases hmarker
      exact .inl rfl
    · exact .inr ⟨s, rfl, hspace, hnamed, hmarker⟩

namespace Written

theorem cons (hs : Proper s) (h : Written items params variadic) :
    Written (.symbol s :: items) (s :: params) variadic := by
  cases h with
  | fixed hparams => exact .fixed (List.forall_mem_cons.2 ⟨hs, hparams⟩)
  | rest hparams hlast => exact .rest (List.forall_mem_cons.2 ⟨hs, hparams⟩) hlast

theorem proper (h : Written items params variadic) : ∀ s ∈ params, Proper s := by
  cases h with
  | fixed hparams => exact hparams
  | rest hparams hlast =>
    intro s hs
    rcases List.mem_append.1 hs with hs | hs
    · exact hparams s hs
    · exact List.mem_singleton.1 hs ▸ hlast

end Written

theorem parse_map_append (hparams : ∀ s ∈ params, Proper s) (items : List Value) :
    parse (params.map .symbol ++ items) = (parse items).map fun p => (params ++ p.1, p.2) := by
  induction params with
  | nil =>
    rw [List.map_nil, List.nil_append]
    cases parse items <;> rfl
  | cons s params ih =>
    obtain ⟨hs, hparams⟩ := List.forall_mem_cons.1 hparams
    rw [List.map_cons, List.cons_append, parse_proper hs, ih hparams]
    cases parse items <;> rfl

/-- Exactly the parameter vectors of the grammar are parsed. -/
theorem parse_eq_ok_iff : parse items = .ok (params, variadic) ↔ Written items params variadic := by
  constructor
  · intro h
    induction items generalizing params with
    | nil =>
      cases h
      exact @Written.fixed [] nofun
    | cons v vs ih =>
      rcases head_of_parse h with rfl | ⟨s, rfl, hs⟩
      · rw [parse_marker] at h
        cases hrest : rest vs with
        | error fault => rw [hrest] at h; cases h
        | ok last =>
          rw [hrest] at h
          cases h
          obtain ⟨rfl, hlast⟩ := rest_eq_ok_iff.1 hrest
          exact @Written.rest [] last nofun hlast
      · rw [parse_proper hs] at h
        cases hmore : parse vs with
        | error fault => rw [hmore] at h; cases h
        | ok parsed =>
          rw [hmore] at h
          cases h
          exact (ih hmore).cons hs
  · intro h
    cases h with
    | fixed hparams =>
      have hparse := parse_map_append hparams []
      rw [List.append_nil] at hparse
      rw [hparse]
      exact congrArg (fun ps => Except.ok (ps, false)) (List.append_nil params)
    | rest hparams hlast =>
      rw [parse_map_append hparams, parse_marker, rest_eq_ok_iff.2 ⟨rfl, hlast⟩]
      rfl

end Params

/-! ## Definitions -/

/-- A clause written as a list, and what it says: the parameters and the forms of the body. -/
def Clause.Written (form : Value) (c : Arity (List Value)) : Prop :=
  ∃ items, form = .list (.vector items :: c.body) ∧ Params.Written items c.params c.variadic

theorem Clause.ofForm_eq_ok_iff {form : Value} {c : Clause} :
    Clause.ofForm form = .ok c ↔ form = .list (.vector c.params :: c.body) := by
  constructor
  · intro h
    unfold Clause.ofForm at h
    split at h <;> cases h
    rfl
  · rintro rfl
    rfl

namespace FnForm

/-- What stands before the clauses of a definition. -/
def opening (name : Option Symbol) (doc : Option String) : List Value :=
  name.toList.map .symbol ++ doc.toList.map .str

/-- The arguments of a definition, and what they say: the name, the documentation, and one entry
for each clause. -/
inductive Written : List Value → Option Symbol → Option String → List (Arity (List Value)) → Prop
    where
  | single {items : List Value} {c : Arity (List Value)} (name : Option Symbol)
      (doc : Option String) (hparams : Params.Written items c.params c.variadic) :
    Written (opening name doc ++ .vector items :: c.body) name doc [c]
  | several {forms : List Value} {clauses : List (Arity (List Value))} (name : Option Symbol)
      (doc : Option String) (hne : clauses ≠ [])
      (hclauses : List.Forall₂ Clause.Written forms clauses) :
    Written (opening name doc ++ forms) name doc clauses

variable {args forms : List Value} {name : Option Symbol} {doc : Option String}
  {clauses : List (Arity (List Value))}

theorem opening_append (args : List Value) :
    opening (takeName args).1 (takeDoc (takeName args).2).1 ++ (takeDoc (takeName args).2).2 =
      args := by
  have hname : (takeName args).1.toList.map Value.symbol ++ (takeName args).2 = args := by
    unfold takeName
    split <;> rfl
  have hdoc (forms : List Value) :
      (takeDoc forms).1.toList.map Value.str ++ (takeDoc forms).2 = forms := by
    unfold takeDoc
    split <;> rfl
  rw [opening, List.append_assoc, hdoc, hname]

/-- Clauses start neither with a symbol nor with a string, so the opening is told from them. -/
theorem take_opening (name : Option Symbol) (doc : Option String) (first : Value)
    (hsymbol : ∀ s, first ≠ .symbol s) (hstr : ∀ s, first ≠ .str s) (more : List Value) :
    takeName (opening name doc ++ first :: more) =
      (name, doc.toList.map .str ++ first :: more) ∧
    takeDoc (doc.toList.map .str ++ first :: more) = (doc, first :: more) := by
  constructor
  · cases name with
    | some s => rfl
    | none =>
      cases doc with
      | some text => rfl
      | none =>
        change takeName (first :: more) = _
        unfold takeName
        split
        · next h => exact absurd (List.cons.inj h).1 (hsymbol _)
        · rfl
  · cases doc with
    | some text => rfl
    | none =>
      change takeDoc (first :: more) = _
      unfold takeDoc
      split
      · next h => exact absurd (List.cons.inj h).1 (hstr _)
      · rfl

theorem parse_opening_vector (name : Option Symbol) (doc : Option String)
    (items body : List Value) :
    parse (opening name doc ++ .vector items :: body) =
      .ok ⟨name, doc, [.list (.vector items :: body)]⟩ := by
  obtain ⟨hname, hdoc⟩ := take_opening name doc (.vector items) (by simp) (by simp) body
  simp only [parse, hname, hdoc]

theorem parse_opening_list (name : Option Symbol) (doc : Option String)
    (items more : List Value) :
    parse (opening name doc ++ .list items :: more) = .ok ⟨name, doc, .list items :: more⟩ := by
  obtain ⟨hname, hdoc⟩ := take_opening name doc (.list items) (by simp) (by simp) more
  simp only [parse, hname, hdoc]

/-- Exactly the definitions of the grammar are split into clauses of the grammar. -/
theorem written_iff : Written args name doc clauses ↔
    ∃ forms, parse args = .ok ⟨name, doc, forms⟩ ∧ List.Forall₂ Clause.Written forms clauses := by
  constructor
  · intro h
    cases h with
    | single name doc hparams =>
      exact ⟨_, parse_opening_vector name doc _ _, .cons ⟨_, rfl, hparams⟩ .nil⟩
    | several name doc hne hclauses =>
      cases hclauses with
      | nil => exact absurd rfl hne
      | cons hclause hmore =>
        obtain ⟨items, rfl, hparams⟩ := hclause
        exact ⟨_, parse_opening_list name doc _ _, .cons ⟨items, rfl, hparams⟩ hmore⟩
  · rintro ⟨forms, hparse, hclauses⟩
    have hargs := opening_append args
    unfold parse at hparse
    dsimp only at hparse
    split at hparse
    · cases hparse
    · next items body hrest =>
      cases hparse
      rw [hrest] at hargs
      rcases hclauses with _ | ⟨⟨items', heq, hparams⟩, _ | _⟩
      cases heq
      have hwritten := Written.single (takeName args).1 (takeDoc (takeName args).2).1 hparams
      rwa [hargs] at hwritten
    · next hne _ =>
      cases hparse
      have hsome : clauses ≠ [] := by
        rintro rfl
        exact hne (List.forall₂_nil_right_iff.1 hclauses)
      have hwritten :=
        Written.several (takeName args).1 (takeDoc (takeName args).2).1 hsome hclauses
      rwa [hargs] at hwritten

/-- Each clause of a definition has a parameter vector of the grammar. -/
theorem Written.params_written (h : Written args name doc clauses) :
    ∀ c ∈ clauses, ∃ items, Params.Written items c.params c.variadic := by
  intro c hc
  cases h with
  | single name doc hparams =>
    rw [List.mem_singleton.1 hc]
    exact ⟨_, hparams⟩
  | several name doc hne hclauses =>
    obtain ⟨_, -, items, -, hparams⟩ := exists_of_mem_right hclauses hc
    exact ⟨items, hparams⟩

theorem Written.proper (h : Written args name doc clauses) :
    ∀ c ∈ clauses, ∀ s ∈ c.params, Params.Proper s := by
  intro c hc
  obtain ⟨items, hparams⟩ := h.params_written c hc
  exact hparams.proper

/-- A form in a body of a definition, and the environment in which it is analyzed. -/
inductive BodyForm (env : Env) (args : List Value) : Env → Value → Prop where
  | intro {f : FnForm} {clause form : Value} {c : Arity (List Value)} (hparse : parse args = .ok f)
      (hclause : clause ∈ f.clauses) (hc : Clause.Written clause c) (hform : form ∈ c.body) :
    BodyForm env args (shadowFrame env f.name c.params) form

end FnForm

/-! ## Analysis -/

/-- An arity that analysis makes of a clause: it has the parameters of the clause, and its body
consists of the forms of the clause, each analyzed in the frame that shadows the parameters. -/
structure Clause.Analyzed (deeper : Env → Value → Run Expr) (env : Env) (name : Option Symbol)
    (c : Arity (List Value)) (a : Arity Expr) : Prop where
  params_eq : a.params = c.params
  variadic_eq : a.variadic = c.variadic
  body_eq : ∃ exprs, a.body = .block exprs ∧
    List.Forall₂ (fun form e => ∃ s t, deeper (shadowFrame env name c.params) form s = .ok e t)
      c.body exprs

section

variable {deeper : Env → Value → Run Expr} {form : String} {env : Env} {name : Option Symbol}
  {clause : Value} {I : Store → Prop} {s t : Store}

theorem checked_eq_ok {α : Type} {r : Except FormFault α} {a : α}
    (h : (checked form r : Run α) s = .ok a t) : r = .ok a := by
  cases r with
  | ok b => cases h; rfl
  | error fault => cases h

theorem analyzeClause_eq_ok {a : Arity Expr}
    (h : analyzeClause deeper form env name clause s = .ok a t) :
    ∃ c, Clause.Written clause c ∧ Clause.Analyzed deeper env name c a := by
  unfold analyzeClause at h
  obtain ⟨⟨items, body⟩, s₁, hclause, hparams⟩ := Run.bind_eq_ok h
  obtain ⟨⟨params, variadic⟩, s₂, hparse, hbody⟩ := Run.bind_eq_ok hparams
  obtain ⟨exprs, s₃, hexprs, hpure⟩ := Run.bind_eq_ok hbody
  cases hpure
  exact ⟨⟨params, variadic, body⟩,
    ⟨items, Clause.ofForm_eq_ok_iff.1 (checked_eq_ok hclause),
      Params.parse_eq_ok_iff.1 (checked_eq_ok hparse)⟩,
    ⟨rfl, rfl, exprs, rfl, Run.mapM_eq_ok hexprs⟩⟩

/-- What analysis accepts is a definition of the grammar, and it makes one arity of each clause. -/
theorem analyzeFn_eq_ok {isMacro : Bool} {args : List Value} {e : Expr}
    (h : analyzeFn deeper form isMacro env args s = .ok e t) :
    ∃ name doc clauses arities, FnForm.Written args name doc clauses ∧
      e = .fn name doc isMacro arities ∧
      List.Forall₂ (Clause.Analyzed deeper env name) clauses arities := by
  unfold analyzeFn at h
  obtain ⟨⟨name, doc, forms⟩, s₁, hparse, hrest⟩ := Run.bind_eq_ok h
  obtain ⟨arities, s₂, harities, hpure⟩ := Run.bind_eq_ok hrest
  cases hpure
  have hclauses := (Run.mapM_eq_ok harities).imp fun _ _ ⟨_, _, h⟩ => analyzeClause_eq_ok h
  obtain ⟨clauses, hforms, hanalyzed⟩ := exists_forall₂ hclauses
  exact ⟨name, doc, clauses, arities, FnForm.written_iff.2 ⟨forms, checked_eq_ok hparse, hforms⟩,
    rfl, hanalyzed⟩

theorem analyzeClause_succeeds {c : Arity (List Value)} (hc : Clause.Written clause c)
    (hbody : ∀ part ∈ c.body,
      (deeper (shadowFrame env name c.params) part).Succeeds I fun _ => True) :
    (analyzeClause deeper form env name clause).Succeeds I (Clause.Analyzed deeper env name c) := by
  obtain ⟨items, rfl, hparams⟩ := hc
  unfold analyzeClause
  simp only [Clause.ofForm, checked, pure_bind, Params.parse_eq_ok_iff.2 hparams]
  refine .bind (.mapM (List.forall₂_same.2 fun part hpart => (hbody part hpart).witnessed)) ?_
  exact fun exprs hexprs => .pure ⟨rfl, rfl, exprs, rfl, hexprs⟩

/-- What is no clause of the grammar is refused before any of its forms is analyzed. -/
theorem analyzeClause_fails (h : ∀ c, ¬ Clause.Written clause c) :
    (analyzeClause deeper form env name clause).Fails I fun e =>
      ∃ fault : FormFault, e = fault.error form := by
  unfold analyzeClause
  cases hclause : Clause.ofForm clause with
  | error fault => exact .bind (.fail ⟨fault, rfl⟩) _
  | ok parts =>
    simp only [checked, pure_bind]
    cases hparams : Params.parse parts.params with
    | error fault => exact .bind (.fail ⟨fault, rfl⟩) _
    | ok parsed =>
      exact absurd ⟨parts.params, Clause.ofForm_eq_ok_iff.1 hclause,
        Params.parse_eq_ok_iff.1 hparams⟩ (h ⟨parsed.1, parsed.2, parts.body⟩)

variable {isMacro : Bool} {args : List Value}

theorem analyzeFn_succeeds {doc : Option String} {clauses : List (Arity (List Value))}
    (hwritten : FnForm.Written args name doc clauses)
    (hbodies : ∀ scope part, FnForm.BodyForm env args scope part →
      (deeper scope part).Succeeds I fun _ => True) :
    (analyzeFn deeper form isMacro env args).Succeeds I fun e => ∃ arities,
      e = .fn name doc isMacro arities ∧
        List.Forall₂ (Clause.Analyzed deeper env name) clauses arities := by
  obtain ⟨forms, hparse, hforms⟩ := FnForm.written_iff.1 hwritten
  have hclauses : List.Forall₂ (fun clause c =>
      (analyzeClause deeper form env name clause).Succeeds I (Clause.Analyzed deeper env name c))
      forms clauses := by
    refine List.forall₂_iff_zip.2 ⟨hforms.length_eq, fun hmem => ?_⟩
    have hc := List.forall₂_zip hforms hmem
    refine analyzeClause_succeeds hc fun part hpart => hbodies _ _ ?_
    exact .intro hparse (List.of_mem_zip hmem).1 hc hpart
  simp only [analyzeFn, hparse, checked, pure_bind]
  exact .bind (.mapM hclauses) fun arities harities => .pure ⟨arities, rfl, harities⟩

theorem analyzeFn_fails (hwritten : ∀ name doc clauses, ¬ FnForm.Written args name doc clauses)
    (hbodies : ∀ scope part, FnForm.BodyForm env args scope part →
      (deeper scope part).Succeeds I fun _ => True) :
    (analyzeFn deeper form isMacro env args).Fails I fun e =>
      ∃ fault : FormFault, e = fault.error form := by
  unfold analyzeFn
  cases hparse : FnForm.parse args with
  | error fault => exact .bind (.fail ⟨fault, rfl⟩) _
  | ok f =>
    simp only [checked, pure_bind]
    refine .bind (.mapM (fun clause hclause => ?_) ?_) _
    · by_cases hc : ∃ c, Clause.Written clause c
      · obtain ⟨c, hc⟩ := hc
        refine .inl ((analyzeClause_succeeds hc fun part hpart => ?_).mono fun _ _ => trivial)
        exact hbodies _ _ (.intro hparse hclause hc hpart)
      · exact .inr (analyzeClause_fails (not_exists.1 hc))
    · obtain ⟨clause, hclause, hc⟩ : ∃ clause ∈ f.clauses, ∀ c, ¬ Clause.Written clause c := by
        by_contra hall
        push Not at hall
        obtain ⟨clauses, hforms, -⟩ := exists_forall₂ (R := Clause.Written)
          (S := fun _ _ => True) (List.forall₂_same.2 fun clause hclause =>
            (hall clause hclause).imp fun _ hc => ⟨hc, trivial⟩)
        exact hwritten _ _ _ (FnForm.written_iff.2 ⟨f.clauses, hparse, hforms⟩)
      exact ⟨clause, hclause, analyzeClause_fails hc⟩

end

/-! ## The special forms -/

namespace SpecialForm

/-- The special form that defines functions, or the one that defines macros. -/
def definition : Bool → SpecialForm
  | false => .function
  | true => .expander

/-- The name under which it reports errors. -/
def definitionName : Bool → String
  | false => "fn"
  | true => "macro"

theorem analyze_definition (isMacro : Bool) (deeper : Env → Value → Run Expr)
    (policy : SpawnPolicy) (env : Env) (args : List Value) :
    (definition isMacro).analyze deeper policy env args =
      analyzeFn deeper (definitionName isMacro) isMacro env args := by
  cases isMacro <;> rfl

/-- Where the forms of all bodies can be analyzed, exactly the definitions of the grammar are
accepted. Each clause gives one arity, in order, with its parameters and its analyzed body; whatever
else is given is refused as a malformed definition. -/
theorem definition_grammar (a : Analyzer) (host : Host) (limit left : Nat) (env : Env)
    (isMacro : Bool) (args : List Value) (I : Store → Prop)
    (hbodies : ∀ scope form, FnForm.BodyForm env args scope form →
      (a.analyze host limit left scope form : Run Expr).Succeeds I fun _ => True)
    (s : Store) (hs : I s) :
    let run : Run Expr :=
      (definition isMacro).analyze (a.analyze host limit left) a.spawnPolicy env args
    ((∃ e t, run s = .ok e t) ↔ ∃ name doc clauses, FnForm.Written args name doc clauses) ∧
    (∀ name doc clauses, FnForm.Written args name doc clauses →
      ∃ arities t, run s = .ok (.fn name doc isMacro arities) t ∧
        List.Forall₂ (Clause.Analyzed (a.analyze host limit left) env name) clauses arities) ∧
    ((∀ name doc clauses, ¬ FnForm.Written args name doc clauses) →
      ∃ fault t, run s = .error (.specialForm (definitionName isMacro) fault) t) := by
  intro run
  have hrun : run =
      analyzeFn (a.analyze host limit left) (definitionName isMacro) isMacro env args :=
    analyze_definition ..
  have haccepts {name doc clauses} (h : FnForm.Written args name doc clauses) :
      ∃ arities t, run s = .ok (.fn name doc isMacro arities) t ∧
        List.Forall₂ (Clause.Analyzed (a.analyze host limit left) env name) clauses arities := by
    obtain ⟨_, t, hok, -, arities, rfl, harities⟩ := analyzeFn_succeeds h hbodies s hs
    exact ⟨arities, t, hrun ▸ hok, harities⟩
  refine ⟨⟨?_, ?_⟩, fun _ _ _ => haccepts, fun h => ?_⟩
  · rintro ⟨e, t, hok⟩
    obtain ⟨name, doc, clauses, -, hwritten, -⟩ := analyzeFn_eq_ok (hrun ▸ hok)
    exact ⟨name, doc, clauses, hwritten⟩
  · rintro ⟨name, doc, clauses, hwritten⟩
    obtain ⟨arities, t, hok, -⟩ := haccepts hwritten
    exact ⟨_, t, hok⟩
  · obtain ⟨_, t, herror, -, fault, rfl⟩ := analyzeFn_fails h hbodies s hs
    exact ⟨fault.message, t, hrun ▸ herror⟩

/-- `(fn pick "the first or the rest" ([x] x) ([x & more] more))` without its head. -/
def pickArgs : List Value :=
  [.symbol ⟨none, "pick"⟩, .str "the first or the rest",
    .list [.vector [.symbol ⟨none, "x"⟩], .symbol ⟨none, "x"⟩],
    .list [.vector [.symbol ⟨none, "x"⟩, .symbol ⟨none, "&"⟩, .symbol ⟨none, "more"⟩],
      .symbol ⟨none, "more"⟩]]

/-- Both clauses of `pick` become arities, and a macro whose marker has nothing after it is
refused. -/
theorem definition_grammar_pick :
    let run (isMacro : Bool) (args : List Value) : Run Expr :=
      (definition isMacro).analyze (Analyzer.standard.analyze standardHost 9 3) .detach (.root 0)
        args
    (∃ arities t, run false pickArgs {} =
        .ok (.fn (some ⟨none, "pick"⟩) (some "the first or the rest") false arities) t ∧
      arities.map (fun a => (a.params, a.variadic)) =
        [([⟨none, "x"⟩], false), ([⟨none, "x"⟩, ⟨none, "more"⟩], true)]) ∧
    ∃ fault t, run true [.vector [.symbol ⟨none, "&"⟩]] {} =
      .error (.specialForm "macro" fault) t := by
  intro run
  have hsymbol (scope : Env) (name : Symbol) :
      (Analyzer.standard.analyze standardHost 9 3 scope (.symbol name) : Run Expr).Succeeds
        (fun _ => True) fun _ => True := by
    intro s hs
    refine ⟨.resolve name, s, ?_, hs, trivial⟩
    rw [Analyzer.analyze_succ]
    exact Run.bind_of_ok (Level.expandLoop_of_none (Level.expandOnce_eq_none_iff.2 ⟨rfl, rfl⟩))
  constructor
  · have hwritten : FnForm.Written pickArgs (some ⟨none, "pick"⟩) (some "the first or the rest")
        [⟨[⟨none, "x"⟩], false, [.symbol ⟨none, "x"⟩]⟩,
          ⟨[⟨none, "x"⟩, ⟨none, "more"⟩], true, [.symbol ⟨none, "more"⟩]⟩] :=
      .several (some ⟨none, "pick"⟩) (some "the first or the rest") (by simp)
        (.cons ⟨_, rfl, Params.parse_eq_ok_iff.1 rfl⟩
          (.cons ⟨_, rfl, Params.parse_eq_ok_iff.1 rfl⟩ .nil))
    have hbodies : ∀ scope form, FnForm.BodyForm (.root 0) pickArgs scope form →
        (Analyzer.standard.analyze standardHost 9 3 scope form : Run Expr).Succeeds
          (fun _ => True) fun _ => True := by
      rintro _ form ⟨hparse, hclause, ⟨items, rfl, -⟩, hform⟩
      obtain rfl := Except.ok.inj hparse
      obtain ⟨name, rfl⟩ : ∃ name, form = .symbol name := by
        simp only [List.mem_cons, Value.list.injEq, List.cons.injEq, List.not_mem_nil,
          or_false] at hclause
        rcases hclause with ⟨-, hbody⟩ | ⟨-, hbody⟩
        all_goals
          rw [hbody] at hform
          exact ⟨_, List.mem_singleton.1 hform⟩
      exact hsymbol _ name
    obtain ⟨arities, t, hok, hanalyzed⟩ := (definition_grammar .standard standardHost 9 3 (.root 0)
      false pickArgs (fun _ => True) hbodies {} trivial).2.1 _ _ _ hwritten
    refine ⟨arities, t, hok, ?_⟩
    obtain _ | ⟨hone, _ | ⟨htwo, _ | _⟩⟩ := hanalyzed
    simp [hone.params_eq, hone.variadic_eq, htwo.params_eq, htwo.variadic_eq]
  · have hlone (c : Arity (List Value)) :
        ¬ Clause.Written (.list [.vector [.symbol ⟨none, "&"⟩]]) c := by
      rintro ⟨items, heq, hparams⟩
      obtain ⟨rfl, -⟩ : items = [.symbol ⟨none, "&"⟩] ∧ c.body = [] := by simpa [eq_comm] using heq
      cases Params.parse_eq_ok_iff.2 hparams
    refine (definition_grammar .standard standardHost 9 3 (.root 0) true
      [.vector [.symbol ⟨none, "&"⟩]] (fun _ => True) ?_ {} trivial).2.2 ?_
    · rintro _ form ⟨hparse, hclause, hc, -⟩
      obtain rfl := Except.ok.inj hparse
      exact absurd (List.mem_singleton.1 hclause ▸ hc) (hlone _)
    · intro name doc clauses hwritten
      obtain ⟨forms, hparse, hforms⟩ := FnForm.written_iff.1 hwritten
      cases hparse
      obtain _ | ⟨hc, _⟩ := hforms
      exact hlone _ hc

end SpecialForm

end LispCore
