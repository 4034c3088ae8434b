import LispCore.Store

/-!
# Lookup is lexical

A symbol without namespace stands for what the nearest frame binds to its name, and if no frame
does, for what the active namespace binds to it. `Env.lookup` finds this at once; `Env.walk` is the
search that asks one environment after the other, each for its own bindings only, and both agree
(`Env.walk_eq_lookup`). What lies beyond the nearest binding has no part in it. A symbol with a
namespace passes all frames by.
-/

namespace LispCore

namespace Env

/-- The bindings of the frames, from the inside out. -/
def frames : Env → List (Bindings Value)
  | .root _ => []
  | .frame _ vars p => vars :: p.frames

/-- The answer, unless it is that a name is not found; then the next one. -/
def orIfNotFound (answer next : Except Error Value) : Except Error Value :=
  answer.tryCatch fun e => if e.isNotFound then next else .error e

/-- Asks this environment alone, and as long as the name is not found there, its parent. The answer
of the root is final. -/
def walk (g : Globals) (symbol : Symbol) : Env → Except Error Value
  | .root id =>
    orIfNotFound ((Env.root id).resolve g symbol.base) (.error (.notFound symbol.text))
  | .frame n vars p => orIfNotFound ((Env.frame n vars p).resolve g symbol.base) (p.walk g symbol)

variable {env : Env} {g : Globals} {symbol : Symbol} {name : String}

/-! ## Nearest frames -/

theorem find?_eq_findSome? (env : Env) (name : String) :
    env.find? name = env.frames.findSome? (Bindings.find? name) := by
  induction env using chain_induction with
  | root id => rfl
  | frame n vars p ih =>
    rw [find?, frames, List.findSome?_cons, ih]
    cases Bindings.find? name vars <;> rfl

theorem find?_of_nearest {inner outer : List (Bindings Value)} {vars : Bindings Value} {v : Value}
    (hframes : env.frames = inner ++ vars :: outer) (hinner : ∀ b ∈ inner, b.find? name = none)
    (hvars : vars.find? name = some v) : env.find? name = some v := by
  have hskipped : inner.findSome? (Bindings.find? name) = none :=
    List.findSome?_eq_none_iff.2 hinner
  rw [find?_eq_findSome?, hframes, List.findSome?_append, hskipped, List.findSome?_cons, hvars]
  rfl

theorem find?_of_free (h : ∀ b ∈ env.frames, b.find? name = none) : env.find? name = none := by
  rw [find?_eq_findSome?]
  exact List.findSome?_eq_none_iff.2 h

/-! ## Lookups -/

theorem lookup_relative (h : symbol.space = none) : env.lookup g symbol =
    ((env.find? symbol.base).or (g.findActive? symbol.base)).elim (.error (.notFound symbol.text))
      .ok := by
  unfold lookup
  rw [h]
  cases env.find? symbol.base with
  | some v => rfl
  | none =>
    simp only [Globals.lookup, h, Option.none_or]
    cases g.findActive? symbol.base <;> rfl

theorem lookup_qualified {ns : String} (h : symbol.space = some ns) :
    env.lookup g symbol = g.resolveQualified ns symbol.base := by
  unfold lookup
  simp only [h, Globals.lookup]

theorem lookup_of_nearest {inner outer : List (Bindings Value)} {vars : Bindings Value} {v : Value}
    (hspace : symbol.space = none) (hframes : env.frames = inner ++ vars :: outer)
    (hinner : ∀ b ∈ inner, b.find? symbol.base = none) (hvars : vars.find? symbol.base = some v) :
    env.lookup g symbol = .ok v := by
  rw [lookup_relative hspace, find?_of_nearest hframes hinner hvars]
  rfl

theorem lookup_of_free (hspace : symbol.space = none)
    (hfree : ∀ b ∈ env.frames, b.find? symbol.base = none) : env.lookup g symbol =
      (g.findActive? symbol.base).elim (.error (.notFound symbol.text)) .ok := by
  rw [lookup_relative hspace, find?_of_free hfree, Option.none_or]

/-- Looking up asks the environment for its own bindings, and then its parent. -/
theorem lookup_frame (h : symbol.space = none) (n : String) (vars : Bindings Value) (p : Env) :
    (Env.frame n vars p).lookup g symbol =
      (vars.find? symbol.base).elim (p.lookup g symbol) .ok := by
  rw [lookup_relative h, lookup_relative h, find?]
  cases Bindings.find? symbol.base vars <;> rfl

theorem walk_eq_lookup (h : symbol.space = none) : env.walk g symbol = env.lookup g symbol := by
  induction env using chain_induction with
  | root id =>
    rw [lookup_relative h, walk, resolve, find?, Option.none_or]
    cases g.findActive? symbol.base <;> rfl
  | frame n vars p ih =>
    rw [lookup_frame h, ← ih, walk, resolve]
    cases Bindings.find? symbol.base vars <;> rfl

/-- A lookup leaves the store as it is and answers from the frames and the globals of the root. A
symbol without namespace is searched from the inside out. If some frame binds its name, the nearest
one that does decides, whatever else that frame binds and whatever the frames beyond it and the
globals are; if none does, the binding in the active namespace decides, and without one the symbol
is not found. A symbol with a namespace is looked up in that namespace of the root, whatever frames
there are and whichever namespace is active. -/
theorem lookup_decided_by_nearest (env : Env) (symbol : Symbol) (s : Store) :
    let g := s.globals env.rootId
    (env.lookupM symbol : Run (Except Error Value)) s = .ok (env.lookup g symbol) s ∧
    (symbol.space = none →
      env.lookup g symbol = env.walk g symbol ∧
      (∀ inner vars outer v, env.frames = inner ++ vars :: outer →
        (∀ b ∈ inner, b.find? symbol.base = none) → vars.find? symbol.base = some v →
          env.lookup g symbol = .ok v ∧
          ∀ (env' : Env) (g' : Globals) (vars' : Bindings Value) (outer' : List (Bindings Value)),
            env'.frames = inner ++ vars' :: outer' → vars'.find? symbol.base = some v →
              env'.lookup g' symbol = env.lookup g symbol) ∧
      ((∀ b ∈ env.frames, b.find? symbol.base = none) →
        env.lookup g symbol =
          (g.findActive? symbol.base).elim (.error (.notFound symbol.text)) .ok ∧
        ∀ (env' : Env) (g' : Globals), (∀ b ∈ env'.frames, b.find? symbol.base = none) →
          g'.findActive? symbol.base = g.findActive? symbol.base →
            env'.lookup g' symbol = env.lookup g symbol)) ∧
    ∀ ns, symbol.space = some ns →
      env.lookup g symbol = g.resolveQualified ns symbol.base ∧
      ∀ (env' : Env) (g' : Globals), g'.tables = g.tables →
        env'.lookup g' symbol = env.lookup g symbol := by
  intro g
  refine ⟨lookupM_eq env symbol s, fun hspace => ⟨(walk_eq_lookup hspace).symm, ?_, ?_⟩, ?_⟩
  · intro inner vars outer v hframes hinner hvars
    have hdecided := lookup_of_nearest (g := g) hspace hframes hinner hvars
    refine ⟨hdecided, fun env' g' vars' outer' hframes' hvars' => ?_⟩
    rw [hdecided, lookup_of_nearest hspace hframes' hinner hvars']
  · intro hfree
    refine ⟨lookup_of_free hspace hfree, fun env' g' hfree' hactive => ?_⟩
    rw [lookup_of_free hspace hfree', lookup_of_free hspace hfree, hactive]
  · intro ns hspace
    refine ⟨lookup_qualified hspace, fun env' g' htables => ?_⟩
    rw [lookup_qualified hspace, lookup_qualified hspace, Globals.resolveQualified,
      Globals.resolveQualified, htables]

/-- Three frames, of which the middle one hides a binding of the outer one. -/
def threeFrames : Env :=
  .frame "h" [("y", .int 2)] (.frame "g" [("x", .int 1), ("y", .int 3)]
    (.frame "f" [("x", .int 5)] (.root 0)))

def twoNamespaces : Store :=
  { roots := [⟨"user", [("lib", [("x", .int 7)]), ("user", [("z", .int 9)])]⟩] }

theorem lookup_decided_by_nearest_threeFrames :
    let g := twoNamespaces.globals 0
    threeFrames.lookup g (.ofBase "x") = .ok (.int 1) ∧
    (∀ p : Env, (Env.frame "h" [("y", .int 2)] (.frame "g" [("x", .int 1)] p)).lookup g
      (.ofBase "x") = threeFrames.lookup g (.ofBase "x")) ∧
    threeFrames.lookup g (.ofBase "z") = .ok (.int 9) ∧
    threeFrames.lookup g (.ofBase "w") = .error (.notFound "w") ∧
    threeFrames.lookup g ⟨some "lib", "x"⟩ = .ok (.int 7) ∧
    (Env.root 0).lookup { g with active := "lib" } ⟨some "lib", "x"⟩ =
      threeFrames.lookup g ⟨some "lib", "x"⟩ := by
  intro g
  have hfree {name : String} (hx : "x" ≠ name) (hy : "y" ≠ name) :
      ∀ b ∈ threeFrames.frames, b.find? name = none := by
    simp [threeFrames, frames, Bindings.find?, hx, hy]
  have hinner : ∀ b ∈ [[("y", Value.int 2)]], Bindings.find? "x" b = none :=
    List.forall_mem_singleton.2 rfl
  obtain ⟨-, hrelative, -⟩ := lookup_decided_by_nearest threeFrames (.ofBase "x") twoNamespaces
  obtain ⟨-, hnearest, -⟩ := hrelative rfl
  obtain ⟨hx, hbeyond⟩ := hnearest _ _ _ _ rfl hinner rfl
  obtain ⟨-, hrelative, -⟩ := lookup_decided_by_nearest threeFrames (.ofBase "z") twoNamespaces
  obtain ⟨hz, -⟩ := (hrelative rfl).2.2 (hfree (by decide) (by decide))
  obtain ⟨-, hrelative, -⟩ := lookup_decided_by_nearest threeFrames (.ofBase "w") twoNamespaces
  obtain ⟨hw, -⟩ := (hrelative rfl).2.2 (hfree (by decide) (by decide))
  obtain ⟨-, -, hqualified⟩ := lookup_decided_by_nearest threeFrames ⟨some "lib", "x"⟩ twoNamespaces
  obtain ⟨hlib, hpast⟩ := hqualified "lib" rfl
  exact ⟨hx, fun p => hbeyond _ g _ p.frames rfl rfl, hz, hw, hlib, hpast _ _ rfl⟩

end Env

end LispCore
