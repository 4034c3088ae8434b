import LispCore.Proofs.Namespaces

/-!
# Concurrent definitions converge

Workers share a root. Each has its own list of commands that bind globals of the root and look
things up, and a `Schedule` says whose command is next. As long as no two workers write to the same
slot, all schedules end in the same state (`Handles.schedules_converge`).

`Globals.Overwrites` says what bindings make of globals: the namespaces stay, and every slot has the
value written last or the one it had. One binding keeps this (`Globals.Overwrites.bind`), so a run of
workers does (`Handles.Worked.run`), and what was written last to a slot is told by the commands of
the one worker that writes there (`Handles.lastWrite_of`).
-/

namespace LispCore

/-! ## Slots and what is written to them -/

/-- A place for a value among the globals of a root. -/
structure Slot where
  ns : String
  name : String
  deriving DecidableEq

/-- The slot that a symbol stands for. -/
def Globals.slot (g : Globals) (symbol : Symbol) : Slot :=
  ⟨symbol.space.getD g.active, symbol.base⟩

/-- The value in a slot. -/
def Globals.at? (g : Globals) (slot : Slot) : Option Value := g.bound? slot.ns slot.name

/-- The slot that a binding writes to, with its value. One that fails writes nothing. -/
def GlobalsOp.written? (g : Globals) : GlobalsOp → Option (Slot × Value)
  | .bind space name v =>
    if (g.define ⟨space, name⟩ v).isOk then some (g.slot ⟨space, Text.trim name⟩, v) else none
  | _ => none

/-- What a command writes to the globals of a root. -/
def EnvCommand.written? (root : Nat) (h : Handles) (c : EnvCommand) : Option (Slot × Value) :=
  (c.opOn? root h).bind (·.written? (h.store.globals root))

namespace Handles

variable (h : Handles) (root : Nat)

/-- All that commands write, in order. -/
def writes (cs : List EnvCommand) : List (Slot × Value) := cs.filterMap (·.written? root h)

/-- The slots that commands write to. -/
def targets (cs : List EnvCommand) : List Slot := (h.writes root cs).map (·.1)

/-- The value that commands write to a slot last. -/
def lastWrite (cs : List EnvCommand) (slot : Slot) : Option Value :=
  (h.writes root cs).reverse.lookup slot

theorem lastWrite_append (cs ds : List EnvCommand) (slot : Slot) :
    h.lastWrite root (cs ++ ds) slot =
      (h.lastWrite root ds slot).or (h.lastWrite root cs slot) := by
  unfold lastWrite writes
  rw [List.filterMap_append, List.reverse_append, List.lookup_append]

theorem lastWrite_singleton (c : EnvCommand) (slot : Slot) :
    h.lastWrite root [c] slot = (c.written? root h).toList.lookup slot := by
  unfold lastWrite writes
  cases hc : c.written? root h with
  | none => simp [hc]
  | some p => simp [hc]

theorem lastWrite_eq_none {cs : List EnvCommand} {slot : Slot} (hslot : slot ∉ h.targets root cs) :
    h.lastWrite root cs slot = none := by
  refine List.lookup_eq_none_iff.2 fun p hp => ?_
  refine bne_iff_ne.2 fun heq => hslot ?_
  exact List.mem_map.2 ⟨p, List.mem_reverse.1 hp, heq.symm⟩

theorem exists_lastWrite {cs : List EnvCommand} {slot : Slot} (hslot : slot ∈ h.targets root cs) :
    ∃ v, h.lastWrite root cs slot = some v := by
  cases hlast : h.lastWrite root cs slot with
  | some v => exact ⟨v, rfl⟩
  | none =>
    obtain ⟨p, hp, rfl⟩ := List.mem_map.1 hslot
    have hmiss := List.lookup_eq_none_iff.1 hlast p (List.mem_reverse.2 hp)
    exact absurd hmiss (by simp)

theorem mem_targets {cs : List EnvCommand} {slot : Slot} :
    slot ∈ h.targets root cs ↔ ∃ c ∈ cs, slot ∈ h.targets root [c] := by
  simp only [targets, writes, List.mem_map, List.mem_filterMap, List.mem_singleton]
  constructor
  · rintro ⟨p, ⟨c, hc, hp⟩, rfl⟩
    exact ⟨c, hc, p, ⟨c, rfl, hp⟩, rfl⟩
  · rintro ⟨c, hc, p, ⟨_, rfl, hp⟩, rfl⟩
    exact ⟨p, ⟨_, hc, hp⟩, rfl⟩

end Handles

/-! ## Globals with slots overwritten -/

namespace Globals

/-- `g'` is `g` with the values of `written` in their slots. -/
structure Overwrites (written : Slot → Option Value) (g g' : Globals) : Prop where
  sound : g'.Sound
  active : g'.active = g.active
  known (ns : String) : g'.tables.contains ns = g.tables.contains ns
  slots (slot : Slot) : g'.at? slot = (written slot).or (g.at? slot)

variable {g g' g₁ g₂ : Globals} {written : Slot → Option Value}

theorem contains_of_at? {slot : Slot} {v : Value} (h : g.at? slot = some v) :
    g.tables.contains slot.ns = true := by
  unfold at? bound? table at h
  unfold Bindings.contains
  cases hfind : g.tables.find? slot.ns with
  | none => rw [hfind] at h; cases h
  | some table => rfl

/-- A lookup tells the value in the slot of the symbol, or why there is none. -/
theorem lookup_eq (g : Globals) (symbol : Symbol) :
    g.lookup symbol = match g.at? (g.slot symbol) with
      | some v => .ok v
      | none =>
        if symbol.space.all g.tables.contains then .error (.notFound symbol.text)
        else .error (.namespaceNotFound (symbol.space.getD g.active)) := by
  obtain ⟨space, base⟩ := symbol
  cases space with
  | none =>
    have hactive : g.findActive? base = g.at? ⟨g.active, base⟩ := by
      unfold findActive? at? bound? table
      cases g.tables.find? g.active <;> rfl
    simp only [lookup, slot, hactive, Option.getD_none]
    cases g.at? ⟨g.active, base⟩ <;> rfl
  | some ns =>
    have hqualified : g.lookup ⟨some ns, base⟩ =
        if g.tables.contains ns then
          match g.at? ⟨ns, base⟩ with
          | some v => .ok v
          | none => .error (.notFound (ns ++ "/" ++ base))
        else .error (.namespaceNotFound ns) := g.resolveQualified_eq ns base
    rw [hqualified]
    simp only [slot, Option.getD_some, Option.all_some]
    cases hat : g.at? ⟨ns, base⟩ with
    | none => rfl
    | some v => rw [if_pos (contains_of_at? hat)]

namespace Overwrites

theorem refl (hg : g.Sound) : Overwrites (fun _ => none) g g :=
  ⟨hg, rfl, fun _ => rfl, fun _ => rfl⟩

/-- Globals are determined by what was written. -/
theorem unique (h₁ : Overwrites written g g₁) (h₂ : Overwrites written g g₂) : g₁ = g₂ := by
  refine h₁.sound.ext h₂.sound (h₁.active.trans h₂.active.symm) (fun ns => ?_) fun ns name => ?_
  · rw [h₁.known, h₂.known]
  · exact (h₁.slots ⟨ns, name⟩).trans (h₂.slots ⟨ns, name⟩).symm

/-- Whether a binding succeeds, and how it fails, does not depend on what was written. -/
theorem define (h : Overwrites written g g') (space : Option String) (name : String) (v : Value) :
    (g'.define ⟨space, name⟩ v).map (fun _ => ()) =
      (g.define ⟨space, name⟩ v).map (fun _ => ()) := by
  have hspace : space.all g'.tables.contains = space.all g.tables.contains := by
    cases space with
    | none => rfl
    | some ns => exact h.known ns
  rw [define_eq, define_eq, hspace, h.active]
  split
  · rfl
  · split <;> rfl

/-- Writing to a namespace that exists. -/
theorem put (h : Overwrites written g g') {ns name : String} {v : Value}
    (hsound : (g'.put ns name v).Sound) (hns : ns ∈ g'.namespaces) :
    Overwrites (fun slot => ([(⟨ns, name⟩, v)].lookup slot).or (written slot)) g
      (g'.put ns name v) := by
  refine ⟨hsound, h.active, fun k => ?_, fun slot => ?_⟩
  · rw [← h.known, Globals.put, Bindings.contains_insert]
    by_cases hk : ns = k
    · subst hk
      rw [mem_namespaces.1 hns]
      rfl
    · simp [hk]
  · have hold := h.slots slot
    obtain ⟨k, key⟩ := slot
    change Globals.bound? _ k key = _
    rw [bound?_put]
    by_cases hslot : ns = k ∧ name = key
    · obtain ⟨rfl, rfl⟩ := hslot
      simp
    · have hne : (Slot.mk k key == ⟨ns, name⟩) = false :=
        beq_false_of_ne fun heq => hslot (by cases heq; exact ⟨rfl, rfl⟩)
      rw [if_neg hslot, List.lookup_cons, hne]
      exact hold

/-- One binding writes its value to its slot, if it succeeds. -/
theorem bind (h : Overwrites written g g') (space : Option String) (name : String) (v : Value) :
    let op := GlobalsOp.bind space name v
    Overwrites (fun slot => ((op.written? g).toList.lookup slot).or (written slot)) g
      (g'.after op) := by
  intro op
  have hsame := h.define space name v
  have hsound := h.sound.after op
  unfold Globals.after at hsound ⊢
  simp only [op, GlobalsOp.exec, GlobalsOp.written?] at hsound ⊢
  cases hdefine' : g'.define ⟨space, name⟩ v with
  | error e =>
    cases hdefine : g.define ⟨space, name⟩ v with
    | error e => exact h
    | ok g₁ => rw [hdefine', hdefine] at hsame; cases hsame
  | ok g₂ =>
    cases hdefine : g.define ⟨space, name⟩ v with
    | error e => rw [hdefine', hdefine] at hsame; cases hsame
    | ok g₁ =>
      rw [hdefine'] at hsound
      obtain ⟨-, hspace, rfl⟩ := eq_put_of_define hdefine'
      have hns : space.getD g'.active ∈ g'.namespaces := by
        cases space with
        | none => exact h.sound.grounded
        | some ns => exact mem_namespaces.2 hspace
      have hput := h.put hsound hns
      rw [h.active] at hput ⊢
      exact hput

/-- A lookup finds what was written to the slot, or what it found before. -/
theorem lookup (h : Overwrites written g g') (symbol : Symbol) :
    g'.lookup symbol = match written (g.slot symbol) with
      | some v => .ok v
      | none => g.lookup symbol := by
  have hslot : g'.slot symbol = g.slot symbol := by
    unfold Globals.slot
    rw [h.active]
  have hspace : symbol.space.all g'.tables.contains = symbol.space.all g.tables.contains := by
    cases symbol.space with
    | none => rfl
    | some ns => exact h.known ns
  rw [g'.lookup_eq, g.lookup_eq, hslot, h.slots, hspace, h.active]
  cases written (g.slot symbol) <;> rfl

end Overwrites

end Globals

/-! ## Workers on a root -/

/-- Binds a global of the root, or looks at an environment. -/
inductive EnvCommand.Works (root : Nat) (h : Handles) (c : EnvCommand) : Prop where
  | binds {space : Option String} {name : String} {v : Value}
    (hop : c.op? h = some (root, .bind space name v))
  | looks {handle : String} {f : Env → Globals → Except Error EnvReply}
    (hkind : c.kind = .looks handle f)

/-- Looks a symbol up among the globals of the root: no frame hides it. -/
inductive EnvCommand.Seeks (root : Nat) (h : Handles) : EnvCommand → Symbol → Prop where
  | resolve {handle name : String} (hfind : h.envs.find? handle = some (.root root)) :
    Seeks root h (.resolve handle name) (.ofBase name)
  | lookup {handle : String} {symbol : Symbol} {env : Env} (hfind : h.envs.find? handle = some env)
    (hroot : env.rootId = root) (hfree : symbol.space = none → env.find? symbol.base = none) :
    Seeks root h (.lookup handle symbol) symbol
  | resolveQualified {handle ns name : String} {env : Env} (hfind : h.envs.find? handle = some env)
    (hroot : env.rootId = root) : Seeks root h (.resolveQualified handle ns name) ⟨some ns, name⟩

namespace EnvCommand

variable {c : EnvCommand} {h h' : Handles} {root : Nat}

theorem op?_congr (henvs : h'.envs = h.envs) (c : EnvCommand) : c.op? h' = c.op? h := by
  unfold op?
  rw [henvs]

theorem Seeks.congr {symbol : Symbol} (hc : c.Seeks root h symbol) (henvs : h'.envs = h.envs) :
    c.Seeks root h' symbol := by
  cases hc with
  | resolve hfind => exact .resolve (by rw [henvs, hfind])
  | lookup hfind hroot hfree => exact .lookup (by rw [henvs, hfind]) hroot hfree
  | resolveQualified hfind hroot => exact .resolveQualified (by rw [henvs, hfind]) hroot

theorem Seeks.reply {symbol : Symbol} (hc : c.Seeks root h symbol) :
    c.reply h = Handles.answered .value ((h.store.globals root).lookup symbol) := by
  have hvalue (r : Except Error Value) :
      Handles.answered id (r.map EnvReply.value) = Handles.answered .value r := by
    cases r <;> rfl
  cases hc with
  | resolve hfind =>
    rw [Handles.reply_looks rfl hfind, hvalue]
    rfl
  | @lookup handle _ env hfind hroot hfree =>
    have hglobal : env.lookup (h.store.globals root) symbol =
        (h.store.globals root).lookup symbol := by
      unfold Env.lookup
      cases hspace : symbol.space with
      | none => rw [hfree hspace]
      | some ns => rfl
    rw [Handles.reply_looks rfl hfind, hvalue, hroot, hglobal]
  | resolveQualified hfind hroot =>
    rw [Handles.reply_looks rfl hfind, hvalue, hroot]
    rfl

end EnvCommand

namespace Handles

/-- What the commands of workers make of a state: they change the globals of the root only, by
what they wrote. -/
structure Worked (root : Nat) (start : Handles) (done : List EnvCommand) (now : Handles) : Prop where
  envs : now.envs = start.envs
  captured : now.captured = start.captured
  store : now.store = start.store.setGlobals root (now.store.globals root)
  globals : Globals.Overwrites (start.lastWrite root done) (start.store.globals root)
    (now.store.globals root)

namespace Worked

variable {root : Nat} {start now now' : Handles} {done : List EnvCommand}

theorem refl (hsound : (start.store.globals root).Sound) : Worked root start [] start where
  envs := rfl
  captured := rfl
  store := (Store.setGlobals_globals start.store root).symm
  globals := .refl hsound

/-- One command of a worker adds what it writes. -/
theorem after (hw : Worked root start done now) (hroot : root < start.store.roots.length)
    {c : EnvCommand} (hc : c.Works root start) :
    Worked root start (done ++ [c]) (c.after now) := by
  have hwritten : start.lastWrite root (done ++ [c]) = fun slot =>
      ((c.written? root start).toList.lookup slot).or (start.lastWrite root done slot) := by
    funext slot
    rw [lastWrite_append, lastWrite_singleton]
  cases hc with
  | binds hop =>
    rename_i space name v
    have hlength : root < now.store.roots.length := by
      rw [hw.store]
      simpa [Store.setGlobals] using hroot
    have hafter : c.after now = now.operate root (.bind space name v) := by
      rw [← EnvCommand.op?_congr hw.envs] at hop
      rw [EnvCommand.after, EnvCommand.exec_of_op hop, EnvCommand.stateOf_operating]
    have hglobals : (c.after now).store.globals root =
        (now.store.globals root).after (.bind space name v) := by
      rw [hafter]
      exact (Store.globals_setGlobals _ root hlength).trans (if_pos rfl)
    refine ⟨by rw [hafter]; exact hw.envs, by rw [hafter]; exact hw.captured, ?_, ?_⟩
    · rw [hglobals, hafter]
      change now.store.setGlobals root _ = _
      rw [hw.store]
      simp only [Store.setGlobals, List.set_set]
    · have hthis : c.written? root start =
          (GlobalsOp.bind space name v).written? (start.store.globals root) := by
        simp [EnvCommand.written?, EnvCommand.opOn?, hop]
      rw [hwritten, hglobals, hthis]
      exact hw.globals.bind space name v
  | looks hkind =>
    have hafter : c.after now = now := by rw [c.after_eq, hkind]; rfl
    have hthis : c.written? root start = none := by
      simp [EnvCommand.written?, EnvCommand.opOn?, EnvCommand.op?, hkind]
    rw [hafter]
    refine ⟨hw.envs, hw.captured, hw.store, ?_⟩
    rw [hwritten, hthis]
    exact hw.globals

theorem run (hw : Worked root start done now) (hroot : root < start.store.roots.length)
    {cs : List EnvCommand} (hcs : ∀ c ∈ cs, c.Works root start) :
    Worked root start (done ++ cs) (now.run cs) := by
  induction cs generalizing done now with
  | nil =>
    rw [List.append_nil]
    exact hw
  | cons c cs ih =>
    obtain ⟨hc, hcs⟩ := List.forall_mem_cons.1 hcs
    have hrest := ih (hw.after hroot hc) hcs
    rwa [List.append_assoc] at hrest

/-- The state is determined by what was written last. -/
theorem unique {done' : List EnvCommand} (hw : Worked root start done now)
    (hw' : Worked root start done' now')
    (hsame : start.lastWrite root done = start.lastWrite root done') : now = now' := by
  have hglobals : now.store.globals root = now'.store.globals root :=
    Globals.Overwrites.unique hw.globals (hsame ▸ hw'.globals)
  have hstore : now.store = now'.store := by rw [hw.store, hw'.store, hglobals]
  have henvs : now.envs = now'.envs := hw.envs.trans hw'.envs.symm
  have hcaptured : now.captured = now'.captured := hw.captured.trans hw'.captured.symm
  cases now
  cases now'
  cases hstore
  cases henvs
  cases hcaptured
  rfl

/-- A binding answers as it would have at the start. -/
theorem reply_bind (hw : Worked root start done now) {c : EnvCommand} {space : Option String}
    {name : String} {v : Value} (hop : c.op? start = some (root, .bind space name v)) :
    c.reply now = c.reply start := by
  have hop' : c.op? now = some (root, .bind space name v) := by
    rw [EnvCommand.op?_congr hw.envs, hop]
  have hon {h : Handles} (hop : c.op? h = some (root, .bind space name v)) :
      c.opOn? root h = some (.bind space name v) := by
    simp [EnvCommand.opOn?, hop]
  rw [reply_of_op (hon hop'), reply_of_op (hon hop)]
  exact congrArg (answered fun _ => .ok) (hw.globals.define space name v)

/-- A lookup answers what was written to its slot last, or else as it would have at the start. -/
theorem reply_seeks (hw : Worked root start done now) {c : EnvCommand} {symbol : Symbol}
    (hc : c.Seeks root start symbol) :
    c.reply now = match start.lastWrite root done ((start.store.globals root).slot symbol) with
      | some v => .ok (.value v)
      | none => c.reply start := by
  rw [(hc.congr hw.envs).reply, hc.reply, hw.globals.lookup]
  cases start.lastWrite root done ((start.store.globals root).slot symbol) <;> rfl

end Worked

end Handles

/-! ## Schedules -/

/-- Commands of several workers, in the order in which they are carried out. -/
abbrev Schedule (ι : Type) := List (ι × EnvCommand)

namespace Schedule

variable {ι : Type}

def commands (t : Schedule ι) : List EnvCommand := t.map (·.2)

/-- The commands of one worker. -/
def of [DecidableEq ι] (t : Schedule ι) (i : ι) : List EnvCommand :=
  (t.filter (·.1 = i)).map (·.2)

/-- Every worker carries out its own program, in order. -/
def Interleaves [DecidableEq ι] (t : Schedule ι) (programs : ι → List EnvCommand) : Prop :=
  ∀ i, t.of i = programs i

theorem mem_of [DecidableEq ι] {t : Schedule ι} {i : ι} {c : EnvCommand} (h : (i, c) ∈ t) :
    c ∈ t.of i :=
  List.mem_map.2 ⟨(i, c), List.mem_filter.2 ⟨h, decide_eq_true rfl⟩, rfl⟩

end Schedule

/-- Workers bind globals of the root and look things up, and no two of them write to one slot. -/
structure Workers {ι : Type} (root : Nat) (start : Handles) (programs : ι → List EnvCommand) :
    Prop where
  works (i : ι) : ∀ c ∈ programs i, c.Works root start
  apart (i j : ι) (hne : i ≠ j) :
    ∀ slot ∈ start.targets root (programs i), slot ∉ start.targets root (programs j)

namespace Handles

variable {ι : Type} [DecidableEq ι] {root : Nat} {start : Handles}

/-- What is written last to a slot is told by the one worker that writes there. -/
theorem lastWrite_of (t : Schedule ι) (i : ι) {slot : Slot}
    (hslot : ∀ j c, (j, c) ∈ t → j ≠ i → slot ∉ start.targets root [c]) :
    start.lastWrite root t.commands slot = start.lastWrite root (t.of i) slot := by
  induction t with
  | nil => rfl
  | cons p t ih =>
    obtain ⟨j, c⟩ := p
    have hrest := ih fun k d hd => hslot k d (List.mem_cons_of_mem _ hd)
    have hcommands : Schedule.commands ((j, c) :: t) = [c] ++ Schedule.commands t := rfl
    rw [hcommands, lastWrite_append, hrest]
    by_cases hj : j = i
    · have hof : Schedule.of ((j, c) :: t) i = [c] ++ Schedule.of t i := by
        simp [Schedule.of, hj]
      rw [hof, lastWrite_append]
    · have hof : Schedule.of ((j, c) :: t) i = Schedule.of t i := by
        simp [Schedule.of, hj]
      rw [hof, lastWrite_eq_none start root (hslot j c List.mem_cons_self hj), Option.or_none]

end Handles

namespace Workers

variable {ι : Type} {root : Nat} {start : Handles} {programs : ι → List EnvCommand}

theorem leave (hw : Workers root start programs) {i : ι} {slot : Slot}
    (hown : slot ∈ start.targets root (programs i)) :
    ∀ j, j ≠ i → slot ∉ start.targets root (programs j) :=
  fun j hj => hw.apart i j (Ne.symm hj) slot hown

variable [DecidableEq ι] {t t' : Schedule ι}

theorem works_commands (hw : Workers root start programs) (ht : t.Interleaves programs) :
    ∀ c ∈ t.commands, c.Works root start := by
  intro c hc
  obtain ⟨⟨i, c⟩, hmem, rfl⟩ := List.mem_map.1 hc
  exact hw.works i c (ht i ▸ Schedule.mem_of hmem)

/-- In a slot that the others leave alone, a worker finds what it wrote itself, in any first part
of a schedule. -/
theorem lastWrite_before (ht : t.Interleaves programs) {before rest : Schedule ι}
    (hsplit : t = before ++ rest) {i : ι} {slot : Slot}
    (hleft : ∀ j, j ≠ i → slot ∉ start.targets root (programs j)) :
    start.lastWrite root before.commands slot = start.lastWrite root (before.of i) slot := by
  refine Handles.lastWrite_of before i fun j c hmem hj hslot => hleft j hj ?_
  refine (Handles.mem_targets start root).2 ⟨c, ?_, hslot⟩
  rw [← ht j]
  exact Schedule.mem_of (hsplit ▸ List.mem_append_left _ hmem)

theorem lastWrite_all (ht : t.Interleaves programs) {i : ι} {slot : Slot}
    (hleft : ∀ j, j ≠ i → slot ∉ start.targets root (programs j)) :
    start.lastWrite root t.commands slot = start.lastWrite root (programs i) slot := by
  rw [lastWrite_before ht (List.append_nil t).symm hleft, ht i]

/-- All schedules write the same in the end. -/
theorem lastWrite_eq (hw : Workers root start programs) (ht : t.Interleaves programs)
    (ht' : t'.Interleaves programs) :
    start.lastWrite root t.commands = start.lastWrite root t'.commands := by
  funext slot
  by_cases hown : ∃ i, slot ∈ start.targets root (programs i)
  · obtain ⟨i, hown⟩ := hown
    rw [lastWrite_all ht (hw.leave hown), lastWrite_all ht' (hw.leave hown)]
  · have hnone {t : Schedule ι} (ht : t.Interleaves programs) :
        start.lastWrite root t.commands slot = none := by
      refine Handles.lastWrite_eq_none start root fun hmem => hown ?_
      obtain ⟨c, hc, hslot⟩ := (Handles.mem_targets start root).1 hmem
      obtain ⟨⟨i, c⟩, hmem, rfl⟩ := List.mem_map.1 hc
      exact ⟨i, (Handles.mem_targets start root).2 ⟨c, ht i ▸ Schedule.mem_of hmem, hslot⟩⟩
    rw [hnone ht, hnone ht']

end Workers

namespace Handles

/-- Workers that bind globals of one root, in any state of it, and look things up converge, as long
as no two of them write to one slot. All schedules end in the same state, where every slot that a
worker wrote to has the last value that this worker wrote there. Along each of them every binding
succeeds or fails as it would have at the start, and a lookup of a slot that no other worker writes
to answers with the last value that its own worker has written there so far; if there is none, it
answers as it would have at the start. -/
theorem schedules_converge {ι : Type} [DecidableEq ι] (h : Handles) (target first : String)
    (setup : List EnvCommand) (programs : ι → List EnvCommand) :
    let root := h.store.roots.length
    let start := ((EnvCommand.new target first).after h).run setup
    Workers root start programs → ∀ t : Schedule ι, t.Interleaves programs →
      (∀ t' : Schedule ι, t'.Interleaves programs →
        start.run t'.commands = start.run t.commands) ∧
      (∀ i, ∀ slot ∈ start.targets root (programs i), ∃ v,
        start.lastWrite root (programs i) slot = some v ∧
        ((start.run t.commands).store.globals root).at? slot = some v) ∧
      ∀ (before after : Schedule ι) (i : ι) (c : EnvCommand), t = before ++ (i, c) :: after →
        (∀ op, c.op? start = some (root, op) →
          c.reply (start.run before.commands) = c.reply start) ∧
        ∀ symbol slot, c.Seeks root start symbol →
          (start.store.globals root).slot symbol = slot →
          (∀ j, j ≠ i → slot ∉ start.targets root (programs j)) →
          c.reply (start.run before.commands) =
            match start.lastWrite root (before.of i) slot with
            | some v => .ok (.value v)
            | none => c.reply start := by
  intro root start hw t ht
  obtain ⟨hroot, hreplay⟩ := h.globals_opened target first setup
  have hsound : (start.store.globals root).Sound := Globals.Reachable.sound ⟨first, _, hreplay⟩
  have hworked {cs : List EnvCommand} (hcs : ∀ c ∈ cs, c.Works root start) :
      Worked root start cs (start.run cs) := (Worked.refl hsound).run hroot hcs
  have hall := hw.works_commands ht
  refine ⟨fun t' ht' => ?_, fun i slot hslot => ?_, fun before after i c hsplit => ?_⟩
  · exact (hworked (hw.works_commands ht')).unique (hworked hall) (hw.lastWrite_eq ht' ht)
  · obtain ⟨v, hv⟩ := start.exists_lastWrite root hslot
    have hat := (hworked hall).globals.slots slot
    rw [Workers.lastWrite_all ht (hw.leave hslot), hv] at hat
    exact ⟨v, hv, hat⟩
  · have hbefore : Worked root start before.commands (start.run before.commands) := by
      refine hworked fun d hd => hall d ?_
      rw [hsplit, Schedule.commands, List.map_append]
      exact List.mem_append_left _ hd
    have hc : c.Works root start := hall c (List.mem_map.2 ⟨(i, c), by simp [hsplit], rfl⟩)
    refine ⟨fun op hop => ?_, fun symbol slot hseeks hslot hleft => ?_⟩
    · cases hc with
      | binds hbind => exact hbefore.reply_bind hbind
      | looks hkind => rw [EnvCommand.op?, hkind] at hop; cases hop
    · rw [hbefore.reply_seeks hseeks, hslot, Workers.lastWrite_before ht hsplit hleft]

/-- A root with a second namespace, and a handle of a frame over it. -/
def sharedRoot : Handles :=
  ((EnvCommand.new "r" "user").after {}).run [.createNamespace "r" "lib", .child "f" "r" "f" []]

/-- Two workers with an `x` of their own each. Each of them also fails to bind something. -/
def twoWriters : Bool → List EnvCommand
  | true => [.bindGlobal "f" ⟨none, " x "⟩ (.int 1), .bindQualified "r" "nope" "x" (.int 2),
      .bindGlobal "r" ⟨none, "x"⟩ (.int 3), .resolve "r" "x"]
  | false => [.bindGlobal "r" ⟨some "lib", "x"⟩ (.int 4), .bindGlobal "f" ⟨none, " "⟩ (.int 5),
      .lookup "f" ⟨some "lib", "x"⟩]

theorem workers_twoWriters : Workers 0 sharedRoot twoWriters where
  works i c hc := by
    cases i with
    | true =>
      simp only [twoWriters, List.mem_cons, List.not_mem_nil, or_false] at hc
      rcases hc with rfl | rfl | rfl | rfl
      · exact .binds rfl
      · exact .binds rfl
      · exact .binds rfl
      · exact .looks rfl
    | false =>
      simp only [twoWriters, List.mem_cons, List.not_mem_nil, or_false] at hc
      rcases hc with rfl | rfl | rfl
      · exact .binds rfl
      · exact .binds rfl
      · exact .looks rfl
  apart := by decide +kernel

theorem schedules_converge_twoWriters :
    let own : Bool → Schedule Bool := fun i => (twoWriters i).map ((i, ·))
    let before : Schedule Bool := (own true).take 1 ++ own false ++ ((own true).drop 1).take 2
    let mixed : Schedule Bool := before ++ [(true, .resolve "r" "x")]
    let final := sharedRoot.run mixed.commands
    final = sharedRoot.run (Schedule.commands (own false ++ own true)) ∧
    (final.store.globals 0).at? ⟨"user", "x"⟩ = some (.int 3) ∧
    (final.store.globals 0).at? ⟨"lib", "x"⟩ = some (.int 4) ∧
    (EnvCommand.resolve "r" "x").reply (sharedRoot.run before.commands) =
      .ok (.value (.int 3)) := by
  intro own before mixed final
  have hmixed : mixed.Interleaves twoWriters := fun i => by cases i <;> rfl
  have hblocks : Schedule.Interleaves (own false ++ own true) twoWriters :=
    fun i => by cases i <;> rfl
  obtain ⟨hsame, hlast, halong⟩ :=
    schedules_converge {} "r" "user" [.createNamespace "r" "lib", .child "f" "r" "f" []] twoWriters
      workers_twoWriters mixed hmixed
  obtain ⟨v, hv, hx⟩ := hlast true ⟨"user", "x"⟩ (by decide +kernel)
  obtain ⟨w, hw, hy⟩ := hlast false ⟨"lib", "x"⟩ (by decide +kernel)
  obtain ⟨-, hlookup⟩ := halong before [] true _ rfl
  cases hv.symm.trans (rfl : _ = some (Value.int 3))
  cases hw.symm.trans (rfl : _ = some (Value.int 4))
  refine ⟨(hsame _ hblocks).symm, hx, hy, (hlookup _ _ (.resolve rfl) rfl ?_).trans rfl⟩
  decide +kernel

end Handles

end LispCore
