import LispCore.Proofs.Convergence
import LispCore.Proofs.Sequencing

/-!
# Globals that the host binds

The host binds and looks up globals by texts. Both split the text into a namespace and a name; a
binding then drops the blanks around the name, a lookup takes it as it is. So a binding writes the
slot of the trimmed symbol, and lookups of all texts that stand for this slot find the value
(`Interpreter.lookups_after_bind`). A text with blanks around its name is not one of them.
-/

namespace LispCore

theorem Globals.at?_put (g : Globals) (target slot : Slot) (v : Value) :
    (g.put target.ns target.name v).at? slot = if slot = target then some v else g.at? slot := by
  unfold at?
  rw [bound?_put]
  by_cases h : slot = target
  · subst h
    simp
  · have hne : ¬ (target.ns = slot.ns ∧ target.name = slot.name) := fun ⟨hns, hname⟩ =>
      h (by cases slot; cases target; simp_all)
    rw [if_neg hne, if_neg h]

theorem Globals.slot_trimmed (g : Globals) (symbol : Symbol) :
    g.slot symbol.trimmed = ⟨symbol.space.getD g.active, Text.trim symbol.base⟩ := rfl

theorem Store.globals_setGlobals_self {s : Store} {root : Nat} (h : root < s.roots.length)
    (g : Globals) : (s.setGlobals root g).globals root = g := by
  rw [globals_setGlobals g root h, if_pos rfl]

/-- A request leaves the globals of a root as they are or makes one definition in them. -/
theorem Store.globals_answer {s : Store} {root : Nat} (hroot : root < s.roots.length)
    (r : Request) :
    root < (s.answer r).2.roots.length ∧
      ((s.answer r).2.globals root = s.globals root ∨
        ∃ symbol v, (s.globals root).define symbol v = .ok ((s.answer r).2.globals root)) := by
  cases r with
  | define k symbol v =>
    simp only [Store.answer]
    cases hdefine : (s.globals k).define symbol v with
    | error e => exact ⟨hroot, .inl rfl⟩
    | ok g =>
      refine ⟨by simpa [setGlobals] using hroot, ?_⟩
      by_cases hk : k = root
      · subst hk
        rw [globals_setGlobals_self hroot]
        exact .inr ⟨symbol, v, hdefine⟩
      · exact .inl (globals_setGlobals_ne _ hk)
  | lookup | freshId | spawn => exact ⟨hroot, .inl rfl⟩

/-- At the root no frame hides a global. -/
theorem Env.lookup_root (id : Nat) (g : Globals) (symbol : Symbol) :
    (Env.root id).lookup g symbol = g.lookup symbol := by
  unfold Env.lookup
  split
  · next hfind => cases hfind
  · rfl

namespace Interpreter

variable (i : Interpreter)

/-- The slot that a text stands for in a lookup. -/
def slotOf (s : Store) (name : String) : Slot := (s.globals i.root).slot (Symbol.parse name)

/-- The slot that a binding of a text writes to. -/
def targetOf (s : Store) (name : String) : Slot :=
  (s.globals i.root).slot (Symbol.parse name).trimmed

/-- A lookup tells what is in the slot and leaves the store alone. -/
theorem get?_eq (name : String) (s : Store) :
    (i.get? name : Run (Option Value)) s =
      .ok ((s.globals i.root).at? (i.slotOf s name)) s := by
  refine (Run.bind_of_ok (Env.lookupM_eq i.env (Symbol.parse name) s)).trans ?_
  have hlookup : i.env.lookup (s.globals i.env.rootId) (Symbol.parse name) =
      (s.globals i.root).lookup (Symbol.parse name) := Env.lookup_root ..
  rw [hlookup, Globals.lookup_eq]
  unfold slotOf
  cases (s.globals i.root).at? ((s.globals i.root).slot (Symbol.parse name)) with
  | some v => rfl
  | none => dsimp only; split <;> rfl

theorem bind_eq (name : String) (v : Value) (s : Store) :
    (i.bind name v : Run Unit) s =
      match (s.globals i.root).define (Symbol.parse name) v with
      | .ok g => .ok () (s.setGlobals i.root g)
      | .error e => .error e s := by
  let r : Request := .define i.root (Symbol.parse name) v
  have hrequest : (request r : Run r.Answer) s = .ok (s.answer r).1 (s.answer r).2 := rfl
  refine (Run.bind_of_ok hrequest).trans ?_
  simp only [r, Store.answer]
  cases (s.globals i.root).define (Symbol.parse name) v with
  | ok g => rfl
  | error e => rfl

/-- A binding succeeds exactly if the name is not blank and its namespace exists, and then it writes
one slot. -/
theorem bind_eq_ok_iff {name : String} {v : Value} {s t : Store} :
    (i.bind name v : Run Unit) s = .ok () t ↔
      (Text.allBlank (Symbol.parse name).base = false ∧
        (Symbol.parse name).space.all (s.globals i.root).tables.contains = true) ∧
      t = s.setGlobals i.root
        ((s.globals i.root).put (i.targetOf s name).ns (i.targetOf s name).name v) := by
  unfold targetOf
  rw [bind_eq, Globals.slot_trimmed]
  constructor
  · intro h
    cases hdefine : (s.globals i.root).define (Symbol.parse name) v with
    | error e =>
      rw [hdefine] at h
      cases h
    | ok g =>
      rw [hdefine] at h
      cases h
      obtain ⟨hname, hspace, rfl⟩ := Globals.eq_put_of_define hdefine
      exact ⟨⟨hname, hspace⟩, rfl⟩
  · rintro ⟨⟨hname, hspace⟩, rfl⟩
    have hdefine :=
      (s.globals i.root).define_eq (Symbol.parse name).space (Symbol.parse name).base v
    rw [hname, hspace] at hdefine
    change (s.globals i.root).define (Symbol.parse name) v = _ at hdefine
    rw [hdefine]
    rfl

/-- After a binding a lookup finds the value in the slot that was written, and elsewhere what was
there before. -/
theorem get?_setGlobals_put {s : Store} (hroot : i.root < s.roots.length) (target : Slot)
    (v : Value) (name : String) :
    let t := s.setGlobals i.root ((s.globals i.root).put target.ns target.name v)
    (i.get? name : Run (Option Value)) t =
      .ok (if i.slotOf s name = target then some v
        else (s.globals i.root).at? (i.slotOf s name)) t := by
  intro t
  have hglobals : t.globals i.root = (s.globals i.root).put target.ns target.name v := by
    rw [Store.globals_setGlobals_self hroot]
  have hslot : i.slotOf t name = i.slotOf s name := by
    unfold slotOf
    rw [hglobals]
    rfl
  rw [get?_eq, hslot, hglobals, Globals.at?_put]

/-- What the host binds it can look up. A binding succeeds exactly if something is left of the name
without the blanks around it and the namespace, if one is given, exists. Then lookups of all texts
that stand for the slot of the trimmed name find exactly the value, among them the text that was
bound unless there are blanks around its name; lookups of all other texts find what they found
before. -/
theorem lookups_after_bind (name : String) (v : Value) (s : Store)
    (hroot : i.root < s.roots.length) :
    ((∃ t, (i.bind name v : Run Unit) s = .ok () t) ↔
      Text.allBlank (Symbol.parse name).base = false ∧
        (Symbol.parse name).space.all (s.globals i.root).tables.contains = true) ∧
    ∀ t, (i.bind name v : Run Unit) s = .ok () t →
      (∀ other, i.slotOf s other = i.targetOf s name →
        (i.get? other : Run (Option Value)) t = .ok (some v) t) ∧
      (Text.trim (Symbol.parse name).base = (Symbol.parse name).base →
        (i.get? name : Run (Option Value)) t = .ok (some v) t) ∧
      ∀ other, i.slotOf s other ≠ i.targetOf s name →
        ∃ found, (i.get? other : Run (Option Value)) s = .ok found s ∧
          (i.get? other : Run (Option Value)) t = .ok found t := by
  refine ⟨⟨fun ⟨t, h⟩ => (i.bind_eq_ok_iff.1 h).1, fun h => ⟨_, i.bind_eq_ok_iff.2 ⟨h, rfl⟩⟩⟩, ?_⟩
  intro t hbind
  obtain ⟨-, rfl⟩ := i.bind_eq_ok_iff.1 hbind
  have hget := i.get?_setGlobals_put hroot (i.targetOf s name) v
  have hfound (other : String) (hslot : i.slotOf s other = i.targetOf s name) :=
    (hget other).trans (by rw [if_pos hslot])
  refine ⟨hfound, fun htrim => hfound name ?_, fun other hne => ?_⟩
  · unfold slotOf targetOf Symbol.trimmed
    rw [htrim]
  · exact ⟨_, i.get?_eq other s, (hget other).trans (by rw [if_neg hne])⟩

/-- A binding of `x` with a blank after it is found under both names of its slot, and not under the
text that was bound. -/
theorem lookups_after_bind_padded :
    ∃ t, (fresh.bind "x " (.int 1) : Run Unit) freshStore = .ok () t ∧
      (fresh.get? "x" : Run (Option Value)) t = .ok (some (.int 1)) t ∧
      (fresh.get? "user/x" : Run (Option Value)) t = .ok (some (.int 1)) t ∧
      (fresh.get? "x " : Run (Option Value)) freshStore = .ok none freshStore ∧
      (fresh.get? "x " : Run (Option Value)) t = .ok none t := by
  have htarget : fresh.targetOf freshStore "x " = ⟨"user", "x"⟩ := by decide
  have hpadded : fresh.slotOf freshStore "x " = ⟨"user", "x "⟩ := by decide
  have hnone : (fresh.get? "x " : Run (Option Value)) freshStore = .ok none freshStore := rfl
  obtain ⟨hsucceeds, hlookups⟩ := fresh.lookups_after_bind "x " (.int 1) freshStore (by decide)
  obtain ⟨t, hbind⟩ := hsucceeds.2 ⟨by decide, by decide⟩
  obtain ⟨hfound, -, hkept⟩ := hlookups t hbind
  obtain ⟨found, hbefore, hafter⟩ := hkept "x " (by rw [htarget, hpadded]; decide)
  cases hnone.symm.trans hbefore
  exact ⟨t, hbind, hfound "x" (by decide), hfound "user/x" (by decide), hnone, hafter⟩

/-- It is not so that every text can be looked up once it has been bound: ` x ` cannot. -/
theorem bound_text_not_found :
    ¬ ∀ (i : Interpreter) (name : String) (v : Value) (s t : Store), i.root < s.roots.length →
      (i.bind name v : Run Unit) s = .ok () t →
      (i.get? name : Run (Option Value)) t = .ok (some v) t := by
  intro h
  have hroot : fresh.root < freshStore.roots.length := by decide
  have htarget : fresh.targetOf freshStore " x " = ⟨"user", "x"⟩ := by decide
  have hpadded : fresh.slotOf freshStore " x " = ⟨"user", " x "⟩ := by decide
  have hempty : (freshStore.globals fresh.root).at? ⟨"user", " x "⟩ = none := rfl
  have hget := fresh.get?_setGlobals_put hroot (fresh.targetOf freshStore " x ") (.int 1) " x "
  rw [hpadded, if_neg (by rw [htarget]; decide), hempty] at hget
  have hvalid : Text.allBlank (Symbol.parse " x ").base = false ∧
      (Symbol.parse " x ").space.all (freshStore.globals fresh.root).tables.contains = true :=
    ⟨by decide, by decide⟩
  have hbind := (fresh.bind_eq_ok_iff (v := .int 1)).2 ⟨hvalid, rfl⟩
  cases hget.symm.trans (h fresh " x " (.int 1) freshStore _ hroot hbind)

end Interpreter

end LispCore
