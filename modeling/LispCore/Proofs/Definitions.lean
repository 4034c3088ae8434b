import LispCore.Proofs.History
import LispCore.Proofs.Interleaving

/-!
# Programs only define globals

Whatever a program does, alone or with the tasks it starts, the active namespace and the set of
namespaces stay, no global binding is removed, and an entry changes only if a node that defines it
was evaluated. `Store.DefinedBy` says this of two stores. A request keeps it (`Store.DefinedBy.answer`),
since definitions are only made for nodes that declare them; hence so does every step of a system.

Binding a relative symbol would create the active namespace if it did not exist. It always does, in
globals that a constructor and operations on environments give (`Globals.Reachable.grounded`), and
definitions keep it so.
-/

namespace LispCore

/-- The value of an entry. -/
def Globals.bound? (g : Globals) (ns name : String) : Option Value := (g.table ns).find? name

/-- `g'` is `g` with entries added or overwritten for symbols that satisfy `P`. -/
structure Globals.DefinedBy (P : Symbol → Prop) (g g' : Globals) : Prop where
  active : g'.active = g.active
  namespaces (ns : String) : ns ∈ g'.namespaces ↔ ns ∈ g.namespaces
  kept {ns name : String} (hsome : (g.bound? ns name).isSome) : (g'.bound? ns name).isSome
  target {ns name : String} (hne : g'.bound? ns name ≠ g.bound? ns name) :
    ∃ symbol, P symbol ∧ symbol.space.getD g.active = ns ∧ Text.trim symbol.base = name

/-- Every root is changed by definitions only, for symbols that evaluated nodes declare. -/
structure Store.DefinedBy (started : List Activation) (s s' : Store) : Prop where
  roots : s'.roots.length = s.roots.length
  globals (root : Nat) : (s.globals root).DefinedBy (Declared started root) (s'.globals root)

/-- The active namespace exists. -/
def Globals.Grounded (g : Globals) : Prop := g.active ∈ g.namespaces

/-- The active namespace of every root exists. -/
def Store.Grounded (s : Store) : Prop := ∀ g ∈ s.roots, g.Grounded

namespace Globals

theorem Reachable.grounded {g : Globals} (h : g.Reachable) : g.Grounded := by
  obtain ⟨first, past, rfl⟩ := h
  have hrecalls := Recalls.replay first past
  rw [Grounded, namespaces, ← Bindings.contains_iff_mem_keys, hrecalls.known, hrecalls.active]
  exact History.knows_active first past

/-- Writing an entry changes that entry only. -/
theorem bound?_put (g : Globals) (ns name : String) (v : Value) (k key : String) :
    (g.put ns name v).bound? k key = if ns = k ∧ name = key then some v else g.bound? k key := by
  rw [bound?, table_put]
  by_cases hns : ns = k
  · subst hns
    simp [bound?, Bindings.find?_insert]
  · simp [hns, bound?]

namespace DefinedBy

variable {P P' : Symbol → Prop} {g g₁ g₂ g₃ : Globals}

theorem refl (P : Symbol → Prop) (g : Globals) : DefinedBy P g g where
  active := rfl
  namespaces _ := .rfl
  kept := id
  target hne := absurd rfl hne

theorem mono (h : DefinedBy P g₁ g₂) (hP : ∀ symbol, P symbol → P' symbol) :
    DefinedBy P' g₁ g₂ where
  active := h.active
  namespaces := h.namespaces
  kept := h.kept
  target hne := by
    obtain ⟨symbol, hsymbol, htarget⟩ := h.target hne
    exact ⟨symbol, hP symbol hsymbol, htarget⟩

theorem trans (h₁ : DefinedBy P g₁ g₂) (h₂ : DefinedBy P g₂ g₃) : DefinedBy P g₁ g₃ where
  active := h₂.active.trans h₁.active
  namespaces ns := (h₂.namespaces ns).trans (h₁.namespaces ns)
  kept hsome := h₂.kept (h₁.kept hsome)
  target {ns name} hne := by
    by_cases hsame : g₃.bound? ns name = g₂.bound? ns name
    · exact h₁.target (hsame ▸ hne)
    · obtain ⟨symbol, hsymbol, hns, hname⟩ := h₂.target hsame
      exact ⟨symbol, hsymbol, h₁.active ▸ hns, hname⟩

theorem grounded (h : DefinedBy P g₁ g₂) (hg : g₁.Grounded) : g₂.Grounded := by
  unfold Grounded
  rw [h.active]
  exact (h.namespaces _).2 hg

/-- Writing an entry of a namespace that exists defines its symbol. -/
theorem put {symbol : Symbol} (hsymbol : P symbol) (v : Value)
    (hns : symbol.space.getD g.active ∈ g.namespaces) :
    DefinedBy P g (g.put (symbol.space.getD g.active) (Text.trim symbol.base) v) := by
  refine ⟨rfl, fun ns => ?_, fun {ns name} hsome => ?_, fun {ns name} hne => ?_⟩
  · change ns ∈ Bindings.keys (Bindings.insert _ _ g.tables) ↔ ns ∈ g.tables.keys
    rw [Bindings.mem_keys_insert]
    exact or_iff_right_of_imp fun heq => heq ▸ hns
  · rw [bound?_put]
    split
    · rfl
    · exact hsome
  · rw [bound?_put] at hne
    split at hne
    · next htarget => exact ⟨symbol, hsymbol, htarget⟩
    · exact absurd rfl hne

/-- A definition that succeeds defines its symbol. -/
theorem define {symbol : Symbol} (hsymbol : P symbol) (hg : g₁.Grounded) {v : Value}
    (h : g₁.define symbol.trimmed v = .ok g₂) : DefinedBy P g₁ g₂ := by
  have hdefine := g₁.define_eq symbol.space (Text.trim symbol.base) v
  rw [Text.trim_trim] at hdefine
  change g₁.define symbol.trimmed v = _ at hdefine
  rw [hdefine] at h
  split at h
  · cases h
  · split at h
    · next hspace =>
      cases h
      refine put hsymbol v ?_
      cases hs : symbol.space with
      | none => exact hg
      | some ns =>
        rw [hs] at hspace
        exact Bindings.contains_iff_mem_keys.1 hspace
    · cases h

end DefinedBy

end Globals

namespace Store

variable {started started' : List Activation} {s s₁ s₂ s₃ : Store}

theorem Grounded.globals (h : s.Grounded) {root : Nat} (hroot : root < s.roots.length) :
    (s.globals root).Grounded := by
  unfold Store.globals
  rw [List.getD_eq_getElem?_getD, List.getElem?_eq_getElem hroot]
  exact h _ (List.getElem_mem hroot)

namespace DefinedBy

theorem of_roots (started : List Activation) (h : s₂.roots = s₁.roots) :
    DefinedBy started s₁ s₂ where
  roots := by rw [h]
  globals root := by
    unfold Store.globals
    rw [h]
    exact .refl _ _

theorem mono (h : DefinedBy started s₁ s₂) (hsub : started ⊆ started') :
    DefinedBy started' s₁ s₂ where
  roots := h.roots
  globals root := (h.globals root).mono fun _ hdeclared => hdeclared.mono hsub

theorem trans (h₁ : DefinedBy started s₁ s₂) (h₂ : DefinedBy started s₂ s₃) :
    DefinedBy started s₁ s₃ where
  roots := h₂.roots.trans h₁.roots
  globals root := (h₁.globals root).trans (h₂.globals root)

theorem grounded (h : DefinedBy started s₁ s₂) (hs : s₁.Grounded) : s₂.Grounded := by
  intro g hmem
  obtain ⟨root, hroot, rfl⟩ := List.getElem_of_mem hmem
  have hglobals := (h.globals root).grounded (hs.globals (h.roots ▸ hroot))
  unfold Store.globals at hglobals
  rwa [List.getD_eq_getElem?_getD, List.getElem?_eq_getElem hroot] at hglobals

/-- A request that is announced only makes the definition it is announced for. -/
theorem answer {r : Request} (hr : r.Announced started) (hs : s.Grounded) :
    DefinedBy started s (s.answer r).2 := by
  cases r with
  | define root symbol v =>
    obtain ⟨declared, hdeclared, rfl⟩ := hr
    simp only [Store.answer]
    cases hdefine : (s.globals root).define declared.trimmed v with
    | error e => exact of_roots started rfl
    | ok g =>
      by_cases hroot : root < s.roots.length
      · refine ⟨by simp [setGlobals], fun k => ?_⟩
        rw [globals_setGlobals g k hroot]
        split
        · next hk =>
          subst hk
          exact .define hdeclared (hs.globals hroot) hdefine
        · exact .refl _ _
      · refine of_roots started ?_
        exact List.set_eq_of_length_le (Nat.le_of_not_lt hroot)
  | lookup | freshId | spawn => exact of_roots started rfl

end DefinedBy

end Store

/-! ## Systems -/

/-- One move only makes definitions of nodes that are evaluated. -/
theorem Thread.Move.definedBy {α : Type} {W : Realm} {a : Analyzer} {host : Host} {s s' : Store}
    {t t' : Thread α} {new started : List Activation} {Q : α → Prop}
    (hmove : t.Move a host s new s' t') (ht : t.Keeps W started Q) (hs : s.Grounded) :
    s.DefinedBy (new ++ started) s' := by
  obtain ⟨P, hscript, -⟩ := ht
  cases hmove with
  | ask => exact .answer hscript.2.1 hs
  | start | exceed | answer | unwind => exact .of_roots _ rfl

namespace System

variable {α : Type} {W : Realm} {Q : α → Prop} {a : Analyzer} {host : Host} {y z : System α}

theorem Step.definedBy (hstep : Step a host y z) (hy : y.Keeps W Q) (hs : y.store.Grounded) :
    y.store.DefinedBy z.started z.store := by
  cases hstep with
  | main hmove => exact hmove.definedBy hy.main hs
  | task hmove =>
    exact hmove.definedBy (hy.tasks _ (List.mem_append_right _ List.mem_cons_self)) hs
  | launch htasks => exact .of_roots _ rfl

theorem Step.started_subset (hstep : Step a host y z) : y.started ⊆ z.started := by
  cases hstep with
  | main hmove => exact List.subset_append_right _ _
  | task hmove => exact List.subset_append_right _ _
  | launch htasks => exact List.Subset.refl _

/-- Whatever order the threads of a system run in, they only make definitions of nodes that have
been evaluated. -/
theorem Reaches.definedBy (hallows : W.Allows a) (hadmits : W.Admits host)
    (hreach : Reaches a host y z) (hy : y.Keeps W Q) (hs : y.store.Grounded) :
    y.store.DefinedBy z.started z.store := by
  induction hreach with
  | refl => exact .of_roots _ rfl
  | tail hreach hstep ih =>
    have hstore := hstep.definedBy (hy.reaches hallows hadmits hreach) (ih.grounded hs)
    exact (ih.mono hstep.started_subset).trans hstore

end System

/-- Programs only add or overwrite globals. Take a store whose roots have globals that a constructor
and operations on environments give, and a run of any kind over it, with whatever tasks wait in the
store or are started by the run. At every point that the run and the tasks can reach, in whatever
order their requests are answered, the active namespaces and the sets of namespaces are as they
were, no binding is gone, and each entry that differs was defined by a node evaluated until then.
One of these orders is the run by itself, up to its value or error, and then any number of rounds of
the tasks. -/
theorem globals_only_defined (a : Analyzer) (host : Host) (limit depth : Nat) (x : Entry)
    (s : Store) (hs : ∀ g ∈ s.roots, g.Reachable) :
    let init := System.init ⟨a, host, limit⟩ depth x s
    let run := x.run a host ⟨depth, limit⟩
    (∀ now, System.Reaches a host init now → s.DefinedBy now.started now.store) ∧
    ∀ rounds, ∃ last, System.Reaches a host init last ∧
      last.store = (run.final s).settle host rounds ∧ last.main.outcome? = some (run.answer s) := by
  intro init run
  have hgrounded : s.Grounded := fun g hg => (hs g hg).grounded
  have hkeeps : init.Keeps .all (Realm.all.result x) :=
    .init (Realm.all_admits host) (Realm.all_entry x) (Store.within_all s)
  refine ⟨fun now hreach => ?_, fun rounds => ?_⟩
  · exact hreach.definedBy (Realm.all_allows a) (Realm.all_admits host) hkeeps hgrounded
  · obtain ⟨y, hrun, hstore, houtcome⟩ := System.reaches_run ⟨a, host, limit⟩ depth x s
    obtain ⟨z, hsettle, hsettled, hmain⟩ := System.reaches_settle rounds y
    exact ⟨z, hrun.trans hsettle, hstore ▸ hsettled, hmain ▸ houtcome⟩

/-- Defines `x` and starts a task that defines `y`. -/
def defineBoth : Expr :=
  .block [.define ⟨none, "x"⟩ (some (.const (.int 1))),
    .go (.define ⟨none, "y"⟩ (some (.const (.int 2)))) .detach]

theorem globals_only_defined_defineBoth :
    let s : Store := { roots := [.ofNamespace "user"] }
    (∀ g ∈ s.roots, g.Reachable) ∧
    ∃ last, System.Reaches .standard standardHost
        (System.init ⟨.standard, standardHost, 9⟩ 0 (.eval (.root 0) defineBoth) s) last ∧
      s.DefinedBy last.started last.store ∧
      (last.store.globals 0).bound? "user" "x" = some (.int 1) ∧
      (last.store.globals 0).bound? "user" "y" = some (.int 2) := by
  intro s
  have hs : ∀ g ∈ s.roots, g.Reachable := List.forall_mem_singleton.2 ⟨"user", [], rfl⟩
  obtain ⟨hall, hlast⟩ :=
    globals_only_defined .standard standardHost 9 0 (.eval (.root 0) defineBoth) s hs
  obtain ⟨last, hreach, hstore, -⟩ := hlast 1
  refine ⟨hs, last, hreach, hall last hreach, ?_, ?_⟩
  · rw [hstore]; rfl
  · rw [hstore]; rfl

end LispCore
