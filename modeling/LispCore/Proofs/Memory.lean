import LispCore.Eval
import LispCore.Proofs.Frames

/-!
# Frames in counted memory

Here frames are cells of a memory that handles, closures, tasks and inner frames refer to. Binding
through a handle writes to the cell in place if that handle is all that refers to it, and otherwise
gives the handle a copy. `Memory.Represents` ties such a memory to the environments of `Handles`,
whose frames are never written to; since every command keeps it, no reply tells whether a frame was
copied.

A cell counts as long as some handle, closure or task leads to it. A handle is given up when it is
set to another environment, a closure or task when it is released.
-/

namespace LispCore

/-- What refers to an environment: the number of a root or the address of a frame. -/
inductive Ref where
  | root (id : Nat)
  | frame (addr : Nat)
  deriving DecidableEq

/-- A frame that is referred to is older than `bound`. -/
def Ref.Below (bound : Nat) : Ref → Prop
  | root _ => True
  | frame addr => addr < bound

theorem Ref.Below.mono {r : Ref} {m n : Nat} (h : r.Below m) (hmn : m ≤ n) : r.Below n := by
  cases r with
  | root id => trivial
  | frame addr => exact Nat.lt_of_lt_of_le h hmn

structure Cell where
  name : String
  vars : Bindings Value
  parent : Ref

/-- Frames in memory, the latest first. The address of a frame is the number of older ones. -/
abbrev Cells := List Cell

namespace Cells

def at? (addr : Nat) : Cells → Option Cell
  | [] => none
  | cell :: older => if addr = older.length then some cell else at? addr older

/-- The environment that a reference stands for. -/
def read : Cells → Ref → Env
  | _, .root id => .root id
  | [], .frame _ => .root 0
  | cell :: older, .frame addr =>
    if addr = older.length then .frame cell.name cell.vars (read older cell.parent)
    else read older (.frame addr)

/-- The addresses of the frames from a reference outwards. -/
def chain : Cells → Ref → List Nat
  | _, .root _ => []
  | [], .frame _ => []
  | cell :: older, .frame addr =>
    if addr = older.length then addr :: chain older cell.parent else chain older (.frame addr)

/-- Binds a name in the frame at an address. -/
def write (addr : Nat) (key : String) (v : Value) : Cells → Cells
  | [] => []
  | cell :: older =>
    if addr = older.length then { cell with vars := cell.vars.insert key v } :: older
    else cell :: write addr key v older

/-- Every frame lies inside an older one or directly inside a root. -/
def Nested : Cells → Prop
  | [] => True
  | cell :: older => cell.parent.Below older.length ∧ Nested older

variable {cells : Cells} {cell : Cell} {addr : Nat} {r : Ref} {key : String} {v : Value}

theorem at?_lt (h : at? addr cells = some cell) : addr < cells.length := by
  induction cells with
  | nil => cases h
  | cons c older ih =>
    rw [at?] at h
    split at h
    · next heq => simp [heq]
    · exact Nat.lt_succ_of_lt (ih h)

theorem exists_at? (h : addr < cells.length) : ∃ cell, at? addr cells = some cell := by
  induction cells with
  | nil => cases h
  | cons c older ih =>
    rw [at?]
    by_cases heq : addr = older.length
    · exact ⟨c, if_pos heq⟩
    · rw [if_neg heq]
      exact ih (by simp at h; omega)

theorem Nested.parent (hs : Nested cells) (h : at? addr cells = some cell) :
    cell.parent.Below cells.length := by
  induction cells with
  | nil => cases h
  | cons c older ih =>
    rw [at?] at h
    split at h
    · cases h
      exact hs.1.mono (Nat.le_succ _)
    · exact (ih hs.2 h).mono (Nat.le_succ _)

theorem read_cons (c : Cell) (h : r.Below cells.length) : read (c :: cells) r = read cells r := by
  cases r with
  | root id => cases cells <;> rfl
  | frame addr => rw [read, if_neg (Nat.ne_of_lt h)]

theorem read_at? (hs : Nested cells) (h : at? addr cells = some cell) :
    read cells (.frame addr) = .frame cell.name cell.vars (read cells cell.parent) := by
  induction cells with
  | nil => cases h
  | cons c older ih =>
    rw [at?] at h
    rw [read]
    split at h
    · next heq =>
      cases h
      rw [if_pos heq, read_cons _ hs.1]
    · next hne => rw [if_neg hne, ih hs.2 h, read_cons c (hs.2.parent h)]

theorem length_write : (write addr key v cells).length = cells.length := by
  induction cells with
  | nil => rfl
  | cons c older ih =>
    rw [write]
    split
    · rfl
    · simp [ih]

theorem Nested.write (hs : Nested cells) : Nested (cells.write addr key v) := by
  induction cells with
  | nil => trivial
  | cons c older ih =>
    rw [Cells.write]
    split
    · exact hs
    · exact ⟨by rw [length_write]; exact hs.1, ih hs.2⟩

theorem read_write_at? (hs : Nested cells) (h : at? addr cells = some cell) :
    read (write addr key v cells) (.frame addr) =
      .frame cell.name (cell.vars.insert key v) (read cells cell.parent) := by
  induction cells with
  | nil => cases h
  | cons c older ih =>
    rw [at?] at h
    rw [write]
    split at h
    · next heq =>
      cases h
      rw [if_pos heq, read, if_pos heq, read_cons _ hs.1]
    · next hne =>
      rw [if_neg hne, read, length_write, if_neg hne, ih hs.2 h, read_cons c (hs.2.parent h)]

/-- Writing to a frame does not show through a reference that does not lead to it. -/
theorem read_write_of_not_mem (h : addr ∉ chain cells r) :
    read (write addr key v cells) r = read cells r := by
  induction cells generalizing r with
  | nil => rfl
  | cons c older ih =>
    cases r with
    | root id => rw [read.eq_1, read.eq_1]
    | frame a =>
      rw [chain] at h
      rw [write]
      by_cases ha : a = older.length
      · rw [if_pos ha] at h
        have hne : addr ≠ older.length := by
          rintro rfl
          exact h (by simp [ha])
        rw [if_neg hne, read, read, length_write, if_pos ha, if_pos ha, ih]
        exact fun hmem => h (List.mem_cons_of_mem _ hmem)
      · rw [if_neg ha] at h
        by_cases haddr : addr = older.length
        · rw [if_pos haddr, read, read, if_neg ha, if_neg ha]
        · rw [if_neg haddr, read, read, length_write, if_neg ha, if_neg ha, ih h]

/-- A frame on a chain is where the chain begins or the parent of another frame on it. -/
theorem mem_chain (h : addr ∈ chain cells r) :
    r = .frame addr ∨
      ∃ a ∈ chain cells r, ∃ cell, at? a cells = some cell ∧ cell.parent = .frame addr := by
  induction cells generalizing r with
  | nil => cases r <;> cases h
  | cons c older ih =>
    cases r with
    | root id => rw [chain] at h; cases h
    | frame a =>
      have hat {b : Nat} {cell : Cell} (hb : at? b older = some cell) :
          at? b (c :: older) = some cell := by
        rw [at?, if_neg (Nat.ne_of_lt (at?_lt hb)), hb]
      rw [chain] at h ⊢
      by_cases ha : a = older.length
      · rw [if_pos ha] at h ⊢
        rcases List.mem_cons.1 h with rfl | hmem
        · exact .inl rfl
        · rcases ih hmem with hparent | ⟨b, hb, cell, hcell, hparent⟩
          · exact .inr ⟨a, List.mem_cons_self, c, by rw [at?, if_pos ha], hparent⟩
          · exact .inr ⟨b, List.mem_cons_of_mem _ hb, cell, hat hcell, hparent⟩
      · rw [if_neg ha] at h ⊢
        rcases ih h with hr | ⟨b, hb, cell, hcell, hparent⟩
        · exact .inl hr
        · exact .inr ⟨b, hb, cell, hat hcell, hparent⟩

end Cells

/-- A store, frames in memory, and what refers to them: handles, and closures and tasks by their
numbers. -/
structure Memory where
  store : Store := {}
  cells : Cells := []
  handles : Bindings Ref := []
  captured : List (Option Ref) := []

namespace Memory

/-- What the handles, closures and tasks stand for. -/
def view (m : Memory) : Handles where
  store := m.store
  envs := m.handles.map fun p => (p.1, m.cells.read p.2)
  captured := m.captured.map (Option.map m.cells.read)

/-- The reference that a holder has. -/
def held (m : Memory) (holder : Holder) : Option Ref := holder.find? m.handles m.captured

/-- Some handle, closure or task leads to the frame. -/
def live (m : Memory) (addr : Nat) : Bool :=
  m.handles.any (fun p => (m.cells.chain p.2).contains addr) ||
    m.captured.any fun r => r.any fun r => (m.cells.chain r).contains addr

/-- The number of handles, of closures and tasks, and of live frames that refer to a frame. -/
def strongCount (m : Memory) (addr : Nat) : Nat :=
  m.handles.countP (fun p => p.2 = .frame addr) +
    m.captured.countP (fun r => r = some (.frame addr)) +
    (List.range m.cells.length).countP fun a =>
      m.live a && (m.cells.at? a).any fun cell => cell.parent = .frame addr

def point (m : Memory) (target : String) (r : Ref) : Memory :=
  { m with handles := m.handles.insert target r }

/-- Makes a new frame. -/
def alloc (m : Memory) (cell : Cell) : Memory := { m with cells := cell :: m.cells }

/-- Lets a new closure or task refer to an environment. -/
def keep (m : Memory) (r : Ref) : Memory := { m with captured := m.captured ++ [some r] }

/-- Sets a handle to a new frame. -/
def enter (m : Memory) (target : String) (cell : Cell) : Memory :=
  (m.alloc cell).point target (.frame m.cells.length)

/-- Binds in the frame at an address, which is copied if it is shared. -/
def bindFrame (m : Memory) (handle key : String) (v : Value) (addr : Nat) : Memory :=
  if m.strongCount addr = 1 then { m with cells := m.cells.write addr key v }
  else match m.cells.at? addr with
    | some cell => m.enter handle { cell with vars := cell.vars.insert key v }
    | none => m

/-- Does to the store what a command does to it. -/
def onStore (m : Memory) (c : EnvCommand) : Memory := { m with store := (c.after m.view).store }

def through (m : Memory) (holder : Holder) (k : Ref → Memory) : Memory :=
  match m.held holder with
  | some r => k r
  | none => m

def after (m : Memory) (c : EnvCommand) : Memory :=
  match c with
  | .new target _ => (m.onStore c).point target (.root m.store.roots.length)
  | .child target handle name vars =>
    m.through (.handle handle) fun r => m.enter target ⟨name, Bindings.ofPairs vars, r⟩
  | .clone target handle => m.through (.handle handle) fun r => m.point target r
  | .root target handle =>
    m.through (.handle handle) fun r => m.point target (.root (m.cells.read r).rootId)
  | .parent target handle => m.through (.handle handle) fun r =>
    match r with
    | .root _ => m
    | .frame addr => match m.cells.at? addr with
      | some cell => m.point target cell.parent
      | none => m
  | .bind handle key v => m.through (.handle handle) fun r =>
    match r with
    | .root _ => m.onStore c
    | .frame addr => if Text.allBlank key then m else m.bindFrame handle (Text.trim key) v addr
  | .capture handle => m.through (.handle handle) m.keep
  | .launch handle => m.through (.handle handle) fun r =>
    (m.alloc ⟨Level.goFrame, [], r⟩).keep (.frame m.cells.length)
  | .reopen target index => m.through (.captured index) (m.point target)
  | .release index => { m with captured := m.captured.set index none }
  | c => m.onStore c

def run (m : Memory) (cs : List EnvCommand) : Memory := cs.foldl after m

/-- A memory in which the references stand for the environments of `h`. -/
structure Represents (m : Memory) (h : Handles) : Prop where
  store : m.store = h.store
  count : m.captured.length = h.captured.length
  held holder : h.held holder = (m.held holder).map m.cells.read
  below (holder : Holder) {r : Ref} (hheld : m.held holder = some r) : r.Below m.cells.length
  nested : m.cells.Nested

theorem two_le_countP {α : Type} {p : α → Bool} {l : List α} {a b : α} (ha : a ∈ l) (hb : b ∈ l)
    (hab : a ≠ b) (hpa : p a = true) (hpb : p b = true) : 2 ≤ l.countP p := by
  obtain ⟨l₁, l₂, rfl⟩ := List.append_of_mem ha
  have hb' : b ∈ l₁ ++ l₂ := by grind
  have hpos : 0 < (l₁ ++ l₂).countP p := List.countP_pos_iff.2 ⟨b, hb', hpb⟩
  rw [List.countP_append] at hpos
  rw [List.countP_append, List.countP_cons_of_pos hpa]
  omega

/-- A frame to which something else refers besides a handle has a count above one. -/
theorem two_le_strongCount {m : Memory} {handle : String} {addr : Nat} {other : Holder}
    (hhandle : m.handles.find? handle = some (.frame addr))
    (hother : m.held other = some (.frame addr)) (hne : other ≠ .handle handle) :
    2 ≤ m.strongCount addr := by
  have hhandle' := Bindings.mem_of_find? hhandle
  unfold strongCount
  cases other with
  | handle name =>
    have htwo : 2 ≤ m.handles.countP (fun p => p.2 = .frame addr) :=
      two_le_countP hhandle' (Bindings.mem_of_find? hother)
        (fun h => hne (congrArg (Holder.handle ·.1) h).symm) (by simp) (by simp)
    omega
  | captured index =>
    have hone : 0 < m.handles.countP (fun p => p.2 = .frame addr) :=
      List.countP_pos_iff.2 ⟨_, hhandle', by simp⟩
    have hmore : 0 < m.captured.countP (fun r => r = some (.frame addr)) :=
      List.countP_pos_iff.2 ⟨_, List.mem_of_getElem? (Option.join_eq_some_iff.1 hother), by simp⟩
    omega

/-- What a holder leads to is live. -/
theorem live_of_held {m : Memory} {holder : Holder} {r : Ref} {addr : Nat}
    (hheld : m.held holder = some r) (haddr : addr ∈ m.cells.chain r) : m.live addr = true := by
  unfold live
  rw [Bool.or_eq_true]
  cases holder with
  | handle name =>
    exact .inl (List.any_eq_true.2 ⟨_, Bindings.mem_of_find? hheld, by simpa using haddr⟩)
  | captured index =>
    have hmem := List.mem_of_getElem? (Option.join_eq_some_iff.1 hheld)
    exact .inr (List.any_eq_true.2 ⟨_, hmem, by simpa using haddr⟩)

/-- A frame that one handle alone refers to is on no chain from another holder. -/
theorem not_mem_chain {m : Memory} {handle : String} {other : Holder} {addr : Nat} {r : Ref}
    (hcount : m.strongCount addr = 1) (hhandle : m.handles.find? handle = some (.frame addr))
    (hother : m.held other = some r) (hne : other ≠ .handle handle) :
    addr ∉ m.cells.chain r := by
  intro hmem
  rcases Cells.mem_chain hmem with rfl | ⟨a, ha, cell, hcell, hparent⟩
  · have htwo := two_le_strongCount hhandle hother hne
    omega
  · have hone : 0 < m.handles.countP (fun p => p.2 = .frame addr) :=
      List.countP_pos_iff.2 ⟨_, Bindings.mem_of_find? hhandle, by simp⟩
    have hlive := live_of_held hother ha
    have hinner : 0 < (List.range m.cells.length).countP fun a =>
        m.live a && (m.cells.at? a).any fun cell => cell.parent = .frame addr :=
      List.countP_pos_iff.2
        ⟨a, List.mem_range.2 (Cells.at?_lt hcell), by simp [hlive, hcell, hparent]⟩
    unfold strongCount at hcount
    omega

namespace Represents

variable {m : Memory} {h : Handles}

theorem apart (hrep : Represents m h) : Handles.Apart (fun _ => False) m.view h := by
  have hheld (holder : Holder) : m.view.held holder = h.held holder := by
    rw [Handles.held, view, Holder.find?_map, hrep.held, Memory.held]
  have hcount : m.view.captured.length = h.captured.length := by simpa [view] using hrep.count
  refine ⟨hrep.store, hcount, fun holder _ => hheld holder, fun holder => ?_⟩
  rw [hheld]
  exact (Handles.Apart.refl (fun _ => False) h).alike holder

theorem onStore (hrep : Represents m h) {c : EnvCommand} (henvs : (c.after h).envs = h.envs)
    (hcaptured : (c.after h).captured = h.captured) : Represents (m.onStore c) (c.after h) where
  store := (hrep.apart.after c).store
  count := by rw [hcaptured]; exact hrep.count
  held holder := by
    rw [Handles.held, henvs, hcaptured]
    exact hrep.held holder
  below holder _ hheld := hrep.below holder hheld
  nested := hrep.nested

/-- One holder gets a reference to what it gets as an environment. -/
theorem set (hrep : Represents m h) {m' : Memory} {h' : Handles} {target : Holder} {r : Ref}
    (hr : r.Below m.cells.length) (hcells : m'.cells = m.cells) (hstore : m'.store = h'.store)
    (hcount : m'.captured.length = h'.captured.length)
    (hm : ∀ holder, m'.held holder = if holder = target then some r else m.held holder)
    (hh : ∀ holder, h'.held holder =
      if holder = target then some (m.cells.read r) else h.held holder) : Represents m' h' where
  store := hstore
  count := hcount
  held holder := by
    rw [hh, hm, hcells]
    split
    · rfl
    · exact hrep.held holder
  below holder r' hheld := by
    rw [hm] at hheld
    rw [hcells]
    split at hheld
    · cases hheld
      exact hr
    · exact hrep.below _ hheld
  nested := hcells ▸ hrep.nested

theorem point (hrep : Represents m h) (target : String) {r : Ref} (hr : r.Below m.cells.length) :
    Represents (m.point target r) (h.put target (m.cells.read r)) :=
  hrep.set hr rfl hrep.store hrep.count
    (fun holder => holder.find?_insert m.handles m.captured target r) (h.held_put target _)

theorem keep (hrep : Represents m h) {r : Ref} (hr : r.Below m.cells.length) :
    Represents (m.keep r) (h.keep (m.cells.read r)) := by
  have hheld := h.held_keep (m.cells.read r)
  rw [← hrep.count] at hheld
  refine hrep.set hr rfl hrep.store ?_
    (fun holder => holder.find?_append m.handles m.captured r) hheld
  simp only [Memory.keep, Handles.keep, List.length_append, hrep.count, List.length_singleton]

theorem drop (hrep : Represents m h) (index : Nat) :
    Represents { m with captured := m.captured.set index none } (h.drop index) where
  store := hrep.store
  count := by simp only [Handles.drop, List.length_set, hrep.count]
  held holder := by
    rw [Handles.held_drop, Memory.held, Holder.find?_set]
    split
    · rfl
    · exact hrep.held holder
  below holder r hheld := by
    rw [Memory.held, Holder.find?_set] at hheld
    split at hheld
    · cases hheld
    · exact hrep.below _ hheld
  nested := hrep.nested

theorem alloc (hrep : Represents m h) (cell : Cell) (hparent : cell.parent.Below m.cells.length) :
    Represents (m.alloc cell) h where
  store := hrep.store
  count := hrep.count
  held holder := by
    rw [hrep.held holder]
    refine Option.map_congr fun r hheld => ?_
    exact (Cells.read_cons cell (hrep.below _ hheld)).symm
  below holder _ hheld := (hrep.below holder hheld).mono (Nat.le_succ _)
  nested := ⟨hparent, hrep.nested⟩

theorem read_alloc (m : Memory) (cell : Cell) : (m.alloc cell).cells.read (.frame m.cells.length) =
    .frame cell.name cell.vars (m.cells.read cell.parent) := by
  simp only [Memory.alloc]
  rw [Cells.read, if_pos rfl]

theorem enter (hrep : Represents m h) (target : String) (cell : Cell)
    (hparent : cell.parent.Below m.cells.length) :
    Represents (m.enter target cell)
      (h.put target (.frame cell.name cell.vars (m.cells.read cell.parent))) := by
  have hpoint := (hrep.alloc _ hparent).point target (r := .frame m.cells.length)
    (Nat.lt_succ_self _)
  rw [read_alloc] at hpoint
  exact hpoint

/-- Writing in place to a frame that one handle alone refers to sets this handle anew. -/
theorem write (hrep : Represents m h) {handle key : String} {v : Value} {addr : Nat} {cell : Cell}
    (hfind : m.handles.find? handle = some (.frame addr)) (hcount : m.strongCount addr = 1)
    (hcell : m.cells.at? addr = some cell) :
    Represents { m with cells := m.cells.write addr key v }
      (h.put handle (.frame cell.name (cell.vars.insert key v) (m.cells.read cell.parent))) where
  store := hrep.store
  count := hrep.count
  held other := by
    rw [Handles.held_put]
    change _ = (m.held other).map (Cells.read (m.cells.write addr key v))
    by_cases hother : other = .handle handle
    · subst hother
      rw [if_pos rfl, Memory.held, Holder.find?, hfind, Option.map_some,
        Cells.read_write_at? hrep.nested hcell]
    · rw [if_neg hother, hrep.held other]
      refine Option.map_congr fun r hr => ?_
      exact (Cells.read_write_of_not_mem (not_mem_chain hcount hfind hr hother)).symm
  below holder _ hheld := by
    rw [Cells.length_write]
    exact hrep.below holder hheld
  nested := hrep.nested.write

theorem bindFrame (hrep : Represents m h) {handle : String} (key : String) (v : Value) {addr : Nat}
    {cell : Cell} (hfind : m.handles.find? handle = some (.frame addr))
    (hcell : m.cells.at? addr = some cell) :
    Represents (m.bindFrame handle key v addr)
      (h.put handle (.frame cell.name (cell.vars.insert key v) (m.cells.read cell.parent))) := by
  unfold Memory.bindFrame
  split
  · next hcount => exact hrep.write hfind hcount hcell
  · rw [hcell]
    have hparent := hrep.nested.parent hcell
    exact hrep.enter handle { cell with vars := cell.vars.insert key v } hparent

theorem through (hrep : Represents m h) (holder : Holder) {k : Ref → Memory}
    {k' : Env → Handles}
    (hk : ∀ r, r.Below m.cells.length → Represents (k r) (k' (m.cells.read r))) :
    Represents (m.through holder k)
      (match h.held holder with
        | some env => k' env
        | none => h) := by
  rw [hrep.held holder]
  unfold Memory.through
  cases hheld : m.held holder with
  | none => exact hrep
  | some r => exact hk r (hrep.below _ hheld)

theorem derives (hrep : Represents m h) {c : EnvCommand} {target : String} {source : Holder}
    {f : Env → Option Env} (hkind : c.kind = .derives target source f) {k : Ref → Memory}
    (hk : ∀ r, r.Below m.cells.length →
      Represents (k r) (((f (m.cells.read r)).map (h.put target)).getD h)) :
    Represents (m.through source k) (c.after h) := by
  have hafter : c.after h = match h.held source with
      | some env => ((f env).map (h.put target)).getD h
      | none => h := by
    rw [c.after_eq, hkind, CommandKind.after]
    cases h.held source with
    | none => rfl
    | some env =>
      rw [Option.bind_some]
      dsimp only
      cases f env <;> rfl
  rw [hafter]
  exact hrep.through source hk

theorem captures (hrep : Represents m h) {c : EnvCommand} {handle : String} {f : Env → Env}
    (hkind : c.kind = .captures handle f) {k : Ref → Memory}
    (hk : ∀ r, r.Below m.cells.length → Represents (k r) (h.keep (f (m.cells.read r)))) :
    Represents (m.through (.handle handle) k) (c.after h) := by
  rw [c.after_eq, hkind, CommandKind.after]
  exact hrep.through (.handle handle) hk

theorem binds (hrep : Represents m h) (handle key : String) (v : Value) :
    Represents (m.after (.bind handle key v)) ((EnvCommand.bind handle key v).after h) := by
  have hfind : h.envs.find? handle = (m.handles.find? handle).map m.cells.read :=
    hrep.held (.handle handle)
  simp only [Memory.after, Memory.through, Memory.held, Holder.find?]
  cases hr : m.handles.find? handle with
  | none =>
    rw [hr] at hfind
    simpa [EnvCommand.after_eq, EnvCommand.kind, CommandKind.after, hfind] using hrep
  | some r =>
    rw [hr, Option.map_some] at hfind
    cases r with
    | root id =>
      rw [Cells.read] at hfind
      refine hrep.onStore ?_ ?_ <;>
        rw [EnvCommand.after_eq, EnvCommand.kind, CommandKind.after, hfind] <;> rfl
    | frame addr =>
      obtain ⟨cell, hcell⟩ := Cells.exists_at? (hrep.below (.handle handle) hr)
      rw [Cells.read_at? hrep.nested hcell] at hfind
      rw [EnvCommand.after_eq, EnvCommand.kind, CommandKind.after, hfind]
      dsimp only
      by_cases hblank : Text.allBlank key = true
      · rw [if_pos hblank, if_pos hblank]
        exact hrep
      · rw [if_neg hblank, if_neg hblank]
        exact hrep.bindFrame (Text.trim key) v hr hcell

/-- One command keeps a memory and the handles together. -/
theorem after (hrep : Represents m h) (c : EnvCommand) : Represents (m.after c) (c.after h) := by
  have hglobal {c : EnvCommand} {handle : String} {op : GlobalsOp}
      (hkind : c.kind = .operates handle op) : Represents (m.onStore c) (c.after h) := by
    refine hrep.onStore ?_ ?_ <;> rw [c.after_eq, hkind, CommandKind.after] <;> split <;> rfl
  cases c with
  | new target ns =>
    have hstore := (hrep.apart.after (.new target ns)).store
    have hpoint := hrep.point target (r := .root m.store.roots.length) trivial
    refine ⟨hstore, hpoint.count, fun holder => ?_, hpoint.below, hpoint.nested⟩
    have hheld := hpoint.held holder
    rw [Cells.read] at hheld
    rw [EnvCommand.after_eq, EnvCommand.kind, CommandKind.after, Handles.opened, ← hrep.store]
    exact hheld
  | child target handle name vars =>
    refine hrep.derives rfl fun r hr => ?_
    exact hrep.enter target ⟨name, Bindings.ofPairs vars, r⟩ hr
  | clone target handle =>
    refine hrep.derives rfl fun r hr => ?_
    exact hrep.point target hr
  | root target handle =>
    refine hrep.derives rfl fun r _ => ?_
    have hpoint := hrep.point target (r := .root (m.cells.read r).rootId) trivial
    rwa [Cells.read] at hpoint
  | parent target handle =>
    refine hrep.derives rfl fun r hr => ?_
    cases r with
    | root id => rw [Cells.read]; exact hrep
    | frame addr =>
      obtain ⟨cell, hcell⟩ := Cells.exists_at? hr
      rw [Cells.read_at? hrep.nested hcell]
      dsimp only
      rw [hcell]
      exact hrep.point target (hrep.nested.parent hcell)
  | bind handle key v => exact hrep.binds handle key v
  | capture handle => exact hrep.captures rfl fun r hr => hrep.keep hr
  | launch handle =>
    refine hrep.captures rfl fun r hr => ?_
    have hkeep := (hrep.alloc ⟨Level.goFrame, [], r⟩ hr).keep (r := .frame m.cells.length)
      (Nat.lt_succ_self _)
    rwa [read_alloc] at hkeep
  | reopen target index =>
    refine hrep.derives rfl fun r hr => ?_
    exact hrep.point target hr
  | release index => exact hrep.drop index
  | info | resolve | lookup | resolveQualified =>
    exact hrep.onStore (by rw [EnvCommand.after_eq]; rfl) (by rw [EnvCommand.after_eq]; rfl)
  | bindQualified | bindGlobal | switchNamespace | createNamespace | clearGlobals =>
    exact hglobal rfl

theorem run (hrep : Represents m h) (cs : List EnvCommand) : Represents (m.run cs) (h.run cs) := by
  induction cs generalizing m h with
  | nil => exact hrep
  | cons c cs ih => exact ih (hrep.after c)

theorem empty : Represents {} {} where
  store := rfl
  count := rfl
  held holder := by cases holder <;> rfl
  below holder _ hheld := by cases holder <;> cases hheld
  nested := trivial

theorem reply (hrep : Represents m h) (c : EnvCommand) : c.reply m.view = c.reply h :=
  hrep.apart.reply fun _ _ => id

end Represents

end Memory

namespace Handles

/-- A binding made through a handle is found through it. -/
theorem reply_resolve_bind {h : Handles} {handle frame : String} {vars : Bindings Value}
    {parent : Env} (hfind : h.envs.find? handle = some (.frame frame vars parent))
    (key : String) (v : Value) (name : String) :
    (EnvCommand.resolve handle name).reply ((EnvCommand.bind handle key v).after h) =
      if Text.allBlank key = false ∧ Text.trim key = name then .ok (.value v)
      else (EnvCommand.resolve handle name).reply h := by
  rw [EnvCommand.after_eq, EnvCommand.kind, CommandKind.after, hfind]
  dsimp only
  by_cases hblank : Text.allBlank key = true
  · simp [hblank]
  · have hbound : (h.put handle (.frame frame (Bindings.insert (Text.trim key) v vars)
        parent)).envs.find? handle =
        some (.frame frame (Bindings.insert (Text.trim key) v vars) parent) := by
      rw [put, Bindings.find?_insert, if_pos rfl]
    rw [if_neg hblank, reply_looks rfl hbound, reply_looks rfl hfind]
    simp only [Env.resolve, Bindings.find?_insert]
    by_cases hname : Text.trim key = name
    · rw [if_pos hname, if_pos ⟨by simpa using hblank, hname⟩]
      rfl
    · rw [if_neg hname, if_neg fun hcond => hname hcond.2]

/-- A closure holds what `capture` lets it hold, and a task what `launch` does. -/
theorem captures {h : Handles} {handle : String} {env : Env}
    (hfind : h.envs.find? handle = some env) (lv : Level Run) :
    (∀ name doc isMacro arities, ∃ f s,
      lv.evalNode env (.fn name doc isMacro arities) h.store = .ok (.fn f) s ∧
      f.env = ((EnvCommand.capture handle).after h).held (.captured h.captured.length)) ∧
    ∀ body policy, ∃ task s,
      lv.evalNode env (.go body policy) h.store = .ok .nil s ∧ s.tasks = task :: h.store.tasks ∧
      some task.env = ((EnvCommand.launch handle).after h).held (.captured h.captured.length) := by
  refine ⟨fun name doc isMacro arities => ⟨_, _, rfl, ?_⟩, fun body policy => ⟨_, _, rfl, rfl, ?_⟩⟩
  · rw [EnvCommand.after_eq, EnvCommand.kind, CommandKind.after, hfind]
    dsimp only
    rw [held_keep, if_pos rfl]
    rfl
  · rw [EnvCommand.after_eq, EnvCommand.kind, CommandKind.after, hfind]
    dsimp only
    rw [held_keep, if_pos rfl]

/-- Frames are private and globals are shared. After any commands: a binding made through the handle
of a frame is found through it, and whatever commands follow, no reply tells of it unless it comes
through that handle or through a handle, closure or task that stems from it; a change of globals
shows at once through every handle over the same root and through nothing that is held over another;
and replies are the same if frames are kept in counted memory, where a binding writes to a frame in
place when nothing else refers to it. What closures and tasks hold is what the commands `capture`
and `launch` let them hold. -/
theorem frames_private (cs : List EnvCommand) :
    let now := Handles.run {} cs
    (∀ handle frame vars parent, now.envs.find? handle = some (.frame frame vars parent) →
      ∀ key v, let bound := (EnvCommand.bind handle key v).after now
        (∀ name, (EnvCommand.resolve handle name).reply bound =
          if Text.allBlank key = false ∧ Text.trim key = name then .ok (.value v)
          else (EnvCommand.resolve handle name).reply now) ∧
        ∀ more, (bound.run more).store = (now.run more).store ∧
          ∀ c : EnvCommand,
            (∀ other, c.holder? = some other → ¬ bound.derived (· = .handle handle) more other) →
            c.reply (bound.run more) = c.reply (now.run more)) ∧
    (∀ (c : EnvCommand) root op, c.op? now = some (root, op) →
      (∀ handle env, now.envs.find? handle = some env → env.rootId = root →
        (∀ name, (EnvCommand.resolve handle name).reply (c.after now) =
          answered .value (env.resolve ((now.store.globals root).after op) name)) ∧
        ∀ symbol, (EnvCommand.lookup handle symbol).reply (c.after now) =
          answered .value (env.lookup ((now.store.globals root).after op) symbol)) ∧
      ∀ holder env, now.held holder = some env → env.rootId ≠ root →
        ∀ look : EnvCommand, look.holder? = some holder →
          look.reply (c.after now) = look.reply now) ∧
    (∀ c : EnvCommand, c.reply (Memory.run {} cs).view = c.reply now) ∧
    ∀ handle env, now.envs.find? handle = some env → ∀ lv : Level Run,
      (∀ name doc isMacro arities, ∃ f s,
        lv.evalNode env (.fn name doc isMacro arities) now.store = .ok (.fn f) s ∧
        f.env = ((EnvCommand.capture handle).after now).held (.captured now.captured.length)) ∧
      ∀ body policy, ∃ task s,
        lv.evalNode env (.go body policy) now.store = .ok .nil s ∧
        s.tasks = task :: now.store.tasks ∧
        some task.env =
          ((EnvCommand.launch handle).after now).held (.captured now.captured.length) := by
  intro now
  have hrooted : Rooted now := Rooted.empty.run cs
  refine ⟨fun handle frame vars parent hfind key v => ⟨?_, fun more => ?_⟩, ?_, fun c => ?_, ?_⟩
  · exact reply_resolve_bind hfind key v
  · have hapart := (Apart.of_bind hfind key v).run more
    exact ⟨hapart.store, fun c hc => hapart.reply hc⟩
  · intro c root op hop
    refine ⟨fun handle env hfind hroot => ⟨fun name => ?_, fun symbol => ?_⟩,
      fun holder env hheld hroot look hlook => ?_⟩
    · rw [hrooted.reply_looks hop hfind hroot rfl]
      cases env.resolve ((now.store.globals root).after op) name <;> rfl
    · rw [hrooted.reply_looks hop hfind hroot rfl]
      cases env.lookup ((now.store.globals root).after op) symbol <;> rfl
    · exact hrooted.reply_other hop hheld hroot hlook
  · exact (Memory.Represents.empty.run cs).reply c
  · exact fun handle env hfind lv => captures hfind lv

/-- Binds twice in one frame. The first time one handle refers to it, the second time a closure does
as well. -/
def rebound : List EnvCommand :=
  [.new "r" "user", .child "f" "r" "f" [("x", .int 0)], .bind "f" "x" (.int 1), .capture "f",
    .bind "f" "x" (.int 2)]

theorem frames_private_rebound :
    let now := Handles.run {} rebound
    let bound := (EnvCommand.bind "f" "x" (.int 3)).after now
    let defined := (EnvCommand.bindGlobal "f" ⟨none, "y"⟩ (.int 4)).after now
    (EnvCommand.resolve "f" "x").reply bound = .ok (.value (.int 3)) ∧
    (EnvCommand.resolve "g" "x").reply (bound.run [.reopen "g" 0]) = .ok (.value (.int 1)) ∧
    (EnvCommand.lookup "f" ⟨none, "y"⟩).reply defined = .ok (.value (.int 4)) ∧
    (EnvCommand.resolve "f" "x").reply (Memory.run {} rebound).view = .ok (.value (.int 2)) ∧
    (Memory.run {} (rebound.take 3)).cells.length = 1 ∧
    (Memory.run {} rebound).cells.length = 2 := by
  intro now bound defined
  obtain ⟨hprivate, hshared, hmemory, -⟩ := frames_private rebound
  have hf : now.envs.find? "f" = some (.frame "f" [("x", .int 2)] (.root 0)) := rfl
  have hop : (EnvCommand.bindGlobal "f" ⟨none, "y"⟩ (.int 4)).op? now =
      some (0, .bind none "y" (.int 4)) := rfl
  obtain ⟨hown, hothers⟩ := hprivate "f" _ _ _ hf "x" (.int 3)
  have hfar : ¬ bound.derived (· = .handle "f") [.reopen "g" 0] (.handle "g") := by
    simp [derived, EnvCommand.derived, EnvCommand.kind]
  refine ⟨(hown "x").trans rfl, ?_, ?_, (hmemory _).trans rfl, rfl, rfl⟩
  · exact ((hothers [.reopen "g" 0]).2 (.resolve "g" "x") (by rintro _ ⟨⟩; exact hfar)).trans rfl
  · exact ((((hshared _ 0 _ hop).1 "f" _ hf) rfl).2 _).trans rfl

end Handles

end LispCore
