import LispCore.Proofs.HostGlobals
import LispCore.Proofs.Outcomes

/-!
# What a definition answers

The answer of a definition is the symbol that it was written with, without the blanks around its
name. From the root, where no frame hides a global, this symbol finds the value that was defined
(`define_answer_finds_value`): the blanks are gone in the answer as they are in the binding, and a
symbol without namespace is bound and looked up in the namespace that is active once the value has
been evaluated. Nothing but this one entry is written, and nothing at all if the definition fails.
-/

namespace LispCore

theorem Text.allBlank_trim (name : String) : allBlank (trim name) = allBlank name := by
  rw [Bool.eq_iff_iff, allBlank, allBlank, ← trimChars_eq_nil_iff, ← trimChars_eq_nil_iff, trim,
    String.toList_ofList, trimChars_trimChars]

/-! ## Definable symbols -/

namespace Globals

/-- The symbol has a name, and the namespace that it names exists. -/
def Definable (g : Globals) (symbol : Symbol) : Prop :=
  Text.allBlank symbol.base = false ∧ symbol.space.all g.tables.contains = true

variable {g : Globals} {symbol : Symbol}

theorem define_of_definable (h : g.Definable symbol) (v : Value) :
    g.define symbol.trimmed v =
      .ok (g.put (g.slot symbol.trimmed).ns (g.slot symbol.trimmed).name v) := by
  refine (g.define_eq symbol.space (Text.trim symbol.base) v).trans ?_
  rw [Text.allBlank_trim, Text.trim_trim, h.1, h.2]
  rfl

theorem define_of_not_definable (h : ¬ g.Definable symbol) (v : Value) :
    ∃ e, g.define symbol.trimmed v = .error e := by
  have hdefine := g.define_eq symbol.space (Text.trim symbol.base) v
  rw [Text.allBlank_trim] at hdefine
  change g.define symbol.trimmed v = _ at hdefine
  rw [hdefine]
  cases hblank : Text.allBlank symbol.base with
  | true => exact ⟨_, rfl⟩
  | false =>
    cases hspace : symbol.space.all g.tables.contains with
    | true => exact absurd ⟨hblank, hspace⟩ h
    | false => exact ⟨_, rfl⟩

/-- The slot of a definable symbol is in a namespace that exists. -/
theorem Definable.mem_namespaces (h : g.Definable symbol) (hg : g.Grounded) :
    (g.slot symbol.trimmed).ns ∈ g.namespaces := by
  rw [slot_trimmed]
  cases hspace : symbol.space with
  | none => exact hg
  | some ns =>
    have hknown := h.2
    rw [hspace] at hknown
    exact Globals.mem_namespaces.2 hknown

end Globals

/-! ## One entry of a store -/

namespace Store

/-- The root is in the store, and its active namespace exists. -/
def Carries (root : Nat) (s : Store) : Prop :=
  root < s.roots.length ∧ (s.globals root).Grounded

/-- `t` is `s` with the value `v` in one slot of a root, whether something was there before or
not. -/
structure Writes (root : Nat) (slot : Slot) (v : Value) (s t : Store) : Prop where
  /-- Other roots, identities and tasks stay. -/
  outside : t = s.setGlobals root (t.globals root)
  active : (t.globals root).active = (s.globals root).active
  namespaces (ns : String) : ns ∈ (t.globals root).namespaces ↔ ns ∈ (s.globals root).namespaces
  slots (other : Slot) :
    (t.globals root).at? other = if other = slot then some v else (s.globals root).at? other

variable {s t : Store} {root : Nat} {slot : Slot} {v : Value}

theorem writes_put (hroot : root < s.roots.length) (hns : slot.ns ∈ (s.globals root).namespaces)
    (v : Value) :
    Writes root slot v s (s.setGlobals root ((s.globals root).put slot.ns slot.name v)) := by
  have hglobals : (s.setGlobals root ((s.globals root).put slot.ns slot.name v)).globals root =
      (s.globals root).put slot.ns slot.name v := globals_setGlobals_self hroot _
  refine ⟨by rw [hglobals], by rw [hglobals]; rfl, fun ns => ?_, fun other => ?_⟩
  · rw [hglobals, Globals.mem_namespaces_put]
    exact or_iff_right_of_imp fun heq => heq ▸ hns
  · rw [hglobals, Globals.at?_put]

/-- A symbol that stands for the slot finds the value. -/
theorem Writes.lookup_root (h : Writes root slot v s t) {symbol : Symbol}
    (hslot : (s.globals root).slot symbol = slot) :
    (Env.root root).lookup (t.globals root) symbol = .ok v := by
  have hsame : (t.globals root).slot symbol = slot := by
    unfold Globals.slot at hslot ⊢
    rw [h.active, hslot]
  rw [Env.lookup_root, Globals.lookup_eq, hsame, h.slots, if_pos rfl]

/-- No request removes a root or its active namespace. -/
theorem Carries.answer (h : s.Carries root) (r : Request) : (s.answer r).2.Carries root := by
  obtain ⟨hroot, hsame | ⟨symbol, v, hdefine⟩⟩ := globals_answer h.1 r
  · exact ⟨hroot, hsame ▸ h.2⟩
  · obtain ⟨-, -, hput⟩ := Globals.eq_put_of_define hdefine
    rw [Carries, hput]
    exact ⟨hroot, Globals.mem_namespaces_put.2 (.inr h.2)⟩

end Store

/-! ## Definitions -/

/-- Evaluates the value of a definition; without one it is nil. -/
def evalValue (host : Host) (limit left : Nat) (env : Env) (value : Option Expr) : Run Value :=
  value.elim (pure .nil) (eval host limit left env)

section

variable {host : Host} {limit left : Nat} {env : Env} {symbol : Symbol} {value : Option Expr}
  {s t : Store} {v : Value}

theorem carries_of_evalValue (hs : s.Carries env.rootId)
    (h : evalValue host limit left env value s = .ok v t) : t.Carries env.rootId := by
  cases value with
  | none =>
    cases h
    exact hs
  | some e =>
    have hrun : (eval host limit left env e : Run Value) s = .ok v t := h
    have hfinal := Run.eval_preserves (fun r s (h : s.Carries env.rootId) => h.answer r) host limit
      left env e s hs
    rwa [Run.final_of_ok hrun] at hfinal

theorem evalOption_eq_evalValue (lv : Level Run) (hlv : lv.eval = eval host limit left)
    (env : Env) (value : Option Expr) :
    lv.evalOption env value = evalValue host limit left env value := by
  cases value with
  | none => rfl
  | some e => exact congrFun (congrFun hlv env) e

theorem eval_define_of_error {e : Error} (h : evalValue host limit left env value s = .error e t) :
    (eval host limit (left + 1) env (.define symbol value) : Run Value) s = .error e t := by
  rw [← evalOption_eq_evalValue ⟨host, ⟨limit - left, limit⟩, eval host limit left⟩ rfl] at h
  exact Run.bind_of_error h

/-- Once the value has been evaluated, the definition is made in the store that is left. -/
theorem eval_define_of_ok (h : evalValue host limit left env value s = .ok v t) :
    (eval host limit (left + 1) env (.define symbol value) : Run Value) s =
      match (t.globals env.rootId).define symbol.trimmed v with
      | .ok g => .ok (.symbol symbol.trimmed) (t.setGlobals env.rootId g)
      | .error e => .error e t := by
  rw [← evalOption_eq_evalValue ⟨host, ⟨limit - left, limit⟩, eval host limit left⟩ rfl] at h
  let r : Request := .define env.rootId symbol.trimmed v
  have hrequest : (request r : Run r.Answer) t = .ok (t.answer r).1 (t.answer r).2 := rfl
  refine (Run.bind_of_ok h).trans ((Run.bind_of_ok hrequest).trans ?_)
  simp only [r, Store.answer]
  cases (t.globals env.rootId).define symbol.trimmed v with
  | ok g => rfl
  | error e => rfl

end

/-- The answer of a definition names what it has defined. In whatever environment and with whatever
symbol it is evaluated, a definition that succeeds answers its symbol without the blanks around the
name. From the root this symbol then finds exactly the value of the definition, and the store is the
one that the evaluation of the value has left with this one entry written. A definition that fails
leaves the store that the evaluation of its value has left, or the one it started from if no level
was left. It succeeds exactly if the value does, the name is not blank and its namespace exists. -/
theorem define_answer_finds_value (host : Host) (limit left : Nat) (env : Env) (symbol : Symbol)
    (value : Option Expr) (s : Store) (hs : s.Carries env.rootId) :
    let run : Run Value := eval host limit left env (.define symbol value)
    let produce : Run Value := evalValue host limit (left - 1) env value
    (∀ answer t, run s = .ok answer t → ∃ v s', produce s = .ok v s' ∧
      answer = .symbol symbol.trimmed ∧
      (Env.root env.rootId).lookup (t.globals env.rootId) symbol.trimmed = .ok v ∧
      s'.Writes env.rootId ((s'.globals env.rootId).slot symbol.trimmed) v t) ∧
    (∀ e t, run s = .error e t →
      left = 0 ∧ t = s ∨ produce s = .error e t ∨ ∃ v, produce s = .ok v t) ∧
    ((∃ answer t, run s = .ok answer t) ↔
      0 < left ∧ ∃ v s', produce s = .ok v s' ∧ (s'.globals env.rootId).Definable symbol) := by
  intro run produce
  cases left with
  | zero =>
    have hrun : run s = .error (.depthExceeded limit) s := rfl
    rw [hrun]
    refine ⟨nofun, fun e t h => ?_, nofun, fun h => absurd h.1 (Nat.lt_irrefl 0)⟩
    cases h
    exact .inl ⟨rfl, rfl⟩
  | succ left =>
    cases hproduce : produce s with
    | error e s' =>
      have hrun : run s = .error e s' := eval_define_of_error hproduce
      rw [hrun]
      refine ⟨nofun, fun e' t h => ?_, nofun, nofun⟩
      cases h
      exact .inr (.inl rfl)
    | ok v s' =>
      have hrun : run s = _ := eval_define_of_ok hproduce
      obtain ⟨hroot, hgrounded⟩ := carries_of_evalValue hs hproduce
      by_cases hdefinable : (s'.globals env.rootId).Definable symbol
      · rw [hrun, Globals.define_of_definable hdefinable]
        have hwrites := Store.writes_put hroot (hdefinable.mem_namespaces hgrounded) v
        refine ⟨fun answer t h => ?_, nofun, fun _ => ⟨Nat.succ_pos left, v, s', rfl, hdefinable⟩,
          fun _ => ⟨_, _, rfl⟩⟩
        cases h
        exact ⟨v, s', rfl, rfl, hwrites.lookup_root rfl, hwrites⟩
      · obtain ⟨e, he⟩ := Globals.define_of_not_definable hdefinable v
        rw [hrun, he]
        refine ⟨nofun, fun e' t h => ?_, nofun, ?_⟩
        · cases h
          exact .inr (.inr ⟨v, rfl⟩)
        · rintro ⟨-, v', s'', h, hdefinable'⟩
          cases h
          exact absurd hdefinable' hdefinable

/-- A frame in which `x` is 5. -/
def fiveFrame : Env := .frame "f" [("x", .int 5)] (.root 0)

/-- A store with the namespaces `lib` and `user`, the latter active. -/
def twoSpaces : Store := { roots := [⟨"user", [("lib", []), ("user", [])]⟩] }

/-- Inside the frame ` x ` is defined to be what the definition of `lib/y ` answers. At the root `x`
is then the symbol `lib/y`, and in the frame it is still 5. -/
theorem define_answer_finds_value_padded :
    let inner : Expr := .define ⟨some "lib", "y "⟩ (some (.const (.int 1)))
    ∃ t, (eval standardHost 9 9 fiveFrame (.define ⟨none, " x "⟩ (some inner)) : Run Value)
        twoSpaces = .ok (.symbol ⟨none, "x"⟩) t ∧
      (Env.root 0).lookup (t.globals 0) ⟨none, "x"⟩ = .ok (.symbol ⟨some "lib", "y"⟩) ∧
      (t.globals 0).at? ⟨"lib", "y"⟩ = some (.int 1) ∧
      fiveFrame.lookup (t.globals 0) ⟨none, "x"⟩ = .ok (.int 5) := by
  intro inner
  let bound : Store := { roots := [⟨"user", [("lib", [("y", .int 1)]), ("user", [])]⟩] }
  have hactive : "user" ∈ ["lib", "user"] := by decide
  have hcarries : twoSpaces.Carries fiveFrame.rootId := ⟨by decide, hactive⟩
  have hproduce : evalValue standardHost 9 8 fiveFrame (some inner) twoSpaces =
      .ok (.symbol ⟨some "lib", "y"⟩) bound := rfl
  have hdefinable : (bound.globals fiveFrame.rootId).Definable ⟨none, " x "⟩ :=
    ⟨by decide, by decide⟩
  obtain ⟨hfound, -, hsucceeds⟩ := define_answer_finds_value standardHost 9 9 fiveFrame
    ⟨none, " x "⟩ (some inner) twoSpaces hcarries
  obtain ⟨answer, t, hrun⟩ := hsucceeds.2 ⟨by decide, _, _, hproduce, hdefinable⟩
  obtain ⟨v, s', hvalue, rfl, hlookup, hwrites⟩ := hfound answer t hrun
  cases hproduce.symm.trans hvalue
  exact ⟨t, hrun, hlookup, hwrites.slots ⟨"lib", "y"⟩, rfl⟩

end LispCore
