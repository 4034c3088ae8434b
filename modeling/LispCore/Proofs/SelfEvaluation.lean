import LispCore.Proofs.Nesting

/-!
# Data evaluates to itself

A value in which nothing stands for something else, and nothing calls, is its own value: analysis
finds no macro to look for, and the literal made of a vector gives the vector back, entry by entry,
also where an entry does not equal itself. Both phases go down the same levels, one for each
non-empty vector that is entered and one for what is inside, so the limit at which either fails is
the same (`data_evaluates_to_itself`).
-/

namespace LispCore

/-! ## Data -/

namespace Value

mutual

/-- Whether a value is made by vectors from values other than symbols and calls. -/
def isData : Value → Bool
  | .symbol _ => false
  | .list items => items.isEmpty
  | .vector items => allData items
  | _ => true

def allData : List Value → Bool
  | [] => true
  | v :: vs => isData v && allData vs

end

mutual

/-- How many non-empty vectors are inside each other. -/
def vectorNesting : Value → Nat
  | .vector (item :: items) => 1 + max (vectorNesting item) (maxVectorNesting items)
  | _ => 0

def maxVectorNesting : List Value → Nat
  | [] => 0
  | v :: vs => max (vectorNesting v) (maxVectorNesting vs)

end

theorem allData_iff {vs : List Value} : allData vs = true ↔ ∀ v ∈ vs, v.isData = true := by
  induction vs with
  | nil => simp [allData]
  | cons v vs ih => rw [allData, Bool.and_eq_true, ih, List.forall_mem_cons]

theorem isData_vector_iff {items : List Value} :
    (Value.vector items).isData = true ↔ ∀ v ∈ items, v.isData = true := by
  rw [isData, allData_iff]

theorem maxLevels_cons_eq {item : Value} {items : List Value}
    (h : ∀ v ∈ item :: items, v.levels = v.vectorNesting + 1) :
    maxLevels (item :: items) = max item.vectorNesting (maxVectorNesting items) + 1 := by
  induction items generalizing item with
  | nil => simp [maxLevels, maxVectorNesting, h item List.mem_cons_self]
  | cons next items ih =>
    obtain ⟨hitem, hitems⟩ := List.forall_mem_cons.1 h
    rw [maxLevels, ih hitems, hitem, maxVectorNesting]
    omega

/-- The analysis of data takes a level for each vector that is entered, and one for what is
inside. -/
theorem levels_of_isData {v : Value} (h : v.isData = true) : v.levels = v.vectorNesting + 1 := by
  induction v using collection_induction with
  | list items _ =>
    cases items with
    | nil => rfl
    | cons head args => cases h
  | vector items ih =>
    cases items with
    | nil => rfl
    | cons item items =>
      have hitems := fun v hv => ih v hv (isData_vector_iff.1 h v hv)
      rw [levels, maxLevels_cons_eq hitems, vectorNesting]
      omega
  | other v hlist hvector =>
    cases v with
    | list items => exact absurd rfl (hlist items)
    | vector items => exact absurd rfl (hvector items)
    | _ => rfl

end Value

/-! ## Its evaluation -/

/-- The expression is evaluated to `v` if enough levels are left, in every environment and over
every store, which stays as it is. -/
def Expr.Yields (v : Value) (e : Expr) : Prop :=
  ∀ (host : Host) (limit left : Nat) (env : Env) (s : Store),
    Run.SucceedsIff (v.levels ≤ left) (.depthExceeded limit) s (eval host limit left env e) (· = v)

namespace Expr.Yields

theorem const {v : Value} (h : v.levels = 1) : Yields v (.const v) := by
  intro host limit left env s
  cases left with
  | zero => exact .fail (by omega)
  | succ left => exact .pure (by omega) rfl

/-- A literal keeps items that are their own values, also those that do not equal themselves. -/
theorem zipWith_literalEntry_self (items : List Value) :
    List.zipWith Level.literalEntry items items = items := by
  simp [List.zipWith_self, Level.literalEntry]

theorem vector {items : List Value} {exprs : List Expr} (h : List.Forall₂ Yields items exprs) :
    Yields (.vector items) (.vector items exprs) := by
  intro host limit left env s
  cases left with
  | zero => exact .fail (Nat.not_le.2 (Value.vector items).levels_pos)
  | succ left =>
    have hexprs : List.Forall₂ (fun e v => Run.SucceedsIff (v.levels ≤ left) (.depthExceeded limit) s
        (eval host limit left env e) (· = v)) exprs items :=
      (h.imp fun _ _ hyields => hyields host limit left env s).flip
    rw [eval_succ, Level.evalNode_vector _ _ h.length_eq.symm]
    refine ((Run.SucceedsIff.mapM hexprs).map fun vals hvals => ?_).congr ?_ rfl
    · -- comparing an item with its value cannot matter where they are the same
      have hsame : items = vals := List.forall₂_eq_eq_eq ▸ hvals.imp fun _ _ h => h.symm
      rw [← hsame, zipWith_literalEntry_self]
    · exact Value.levels_vector_le_iff.symm

end Expr.Yields

namespace Analyzer

variable (a : Analyzer) (host : Host) (limit left : Nat) (env : Env) (s : Store) {v : Value}

theorem analyze_const (hlevels : v.levels = 1)
    (h : ∀ left, (a.analyze host limit (left + 1) env v : Run Expr) s = .ok (.const v) s) :
    Run.SucceedsIff (v.levels ≤ left) (.depthExceeded limit) s (a.analyze host limit left env v)
      (Expr.Yields v) := by
  cases left with
  | zero => exact .fail (by omega)
  | succ left => exact .congr (.pure (by omega) (.const hlevels)) Iff.rfl (h left)

/-- Data is analyzed if enough levels are left, whatever macros are bound, and the expression yields
it. -/
theorem analyze_data (hv : v.isData = true) :
    Run.SucceedsIff (v.levels ≤ left) (.depthExceeded limit) s (a.analyze host limit left env v)
      (Expr.Yields v) := by
  induction v using Value.collection_induction generalizing left with
  | list items _ =>
    cases items with
    | nil => exact analyze_const a host limit left env s rfl fun _ => analyze_of_not_call rfl
    | cons head args => cases hv
  | vector items ih =>
    cases items with
    | nil => exact analyze_const a host limit left env s rfl fun _ => analyze_of_not_call rfl
    | cons item items =>
      cases left with
      | zero => exact .fail (Nat.not_le.2 (Value.levels_pos _))
      | succ left =>
        have hitems := Run.SucceedsIff.mapM (List.forall₂_same.2 fun v hmem =>
          ih v hmem left (Value.isData_vector_iff.1 hv v hmem))
        refine (hitems.map fun exprs hexprs => Expr.Yields.vector hexprs).congr ?_
          (analyze_of_not_call rfl)
        exact Value.levels_vector_le_iff.symm
  | other v hlist hvector =>
    cases v with
    | list items => exact absurd rfl (hlist items)
    | vector items => exact absurd rfl (hvector items)
    | symbol symbol => cases hv
    | _ => exact analyze_const a host limit left env s rfl fun _ => analyze_of_not_call rfl

/-- Both phases succeed on the same condition. -/
theorem evalTop_data (c : Context) (hv : v.isData = true) :
    (a.evalTop host c env v : Run Value) s =
      if c.depth + v.vectorNesting + 1 ≤ c.limit then .ok v s
      else .error (.depthExceeded c.limit) s := by
  have hleft : v.levels ≤ c.left ↔ c.depth + v.vectorNesting + 1 ≤ c.limit := by
    rw [Value.levels_of_isData hv, Context.left]
    omega
  obtain ⟨hsucceeds, hfails⟩ := a.analyze_data host c.limit c.left env s hv
  rw [hleft] at hsucceeds hfails
  split
  · next hfits =>
    obtain ⟨e, hanalyze, hyields⟩ := hsucceeds hfits
    obtain ⟨w, heval, rfl⟩ := (hyields host c.limit c.left env s).1 (hleft.2 hfits)
    exact (Run.bind_of_ok hanalyze).trans heval
  · next hexceeds => exact Run.bind_of_error (hfails hexceeds)

end Analyzer

/-- Data evaluates to itself, in every environment and over every store, whatever macros are bound,
and with every analyzer and host: the answer is the value and the store stays as it is, if the depth,
the nesting of its non-empty vectors and one more are within the limit. Otherwise the evaluation
fails with the limit and has changed nothing either. -/
theorem data_evaluates_to_itself (host : Host) (s : Store) {v : Value} (hv : v.isData = true) :
    (∀ (a : Analyzer) (c : Context) (env : Env), (a.evalTop host c env v : Run Value) s =
      if c.depth + v.vectorNesting + 1 ≤ c.limit then .ok v s
      else .error (.depthExceeded c.limit) s) ∧
    ∀ (i : Interpreter) (depth : Nat), (i.eval host depth v : Run Value) s =
      if depth + v.vectorNesting + 1 ≤ i.maxDepth then .ok v s
      else .error (.depthExceeded i.maxDepth) s := by
  refine ⟨fun a c env => a.evalTop_data host env s c hv, fun i depth => ?_⟩
  exact i.analyzer.evalTop_data host i.env s (i.context depth) hv

/-- A macro without clauses. -/
def idleMacro : Value := .fn (Closure.instantiate 0 none none true [] (.root 0))

/-- Data with a number that does not equal itself and a zero that equals one with other bits. -/
def oddData : Value :=
  .vector [.nil, .vector [.float ⟨0x7FF8000000000000⟩, .float ⟨0x8000000000000000⟩, .vector []],
    .list [], idleMacro]

/-- Two vectors inside each other take three levels. Where `f` is a macro and the limit is 3, they
are evaluated from depth 0 but not from depth 1. -/
theorem data_evaluates_to_itself_oddData :
    let i : Interpreter := ⟨0, .standard, 3⟩
    let s : Store := { roots := [⟨"user", [("user", [("f", idleMacro)])]⟩] }
    (i.eval standardHost 0 oddData : Run Value) s = .ok oddData s ∧
    (i.eval standardHost 1 oddData : Run Value) s = .error (.depthExceeded 3) s := by
  intro i s
  obtain ⟨-, heval⟩ := data_evaluates_to_itself standardHost s (v := oddData) rfl
  exact ⟨heval i 0, heval i 1⟩

end LispCore
