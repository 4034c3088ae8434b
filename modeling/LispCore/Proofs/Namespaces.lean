import LispCore.Proofs.Definitions
import LispCore.Proofs.Frames

/-!
# The namespaces of a root

`Globals.Sound` says what the globals of a root always are: the active namespace exists, every name
is bound without blanks around it, and the tables are sorted, so that globals with the same entries
are the same (`Globals.Sound.ext`). Every operation keeps this (`Globals.Sound.after`) and no
operation removes a namespace (`Globals.namespaces_after`), hence it holds after any commands.

Since the active namespace exists, the three ways to bind in it come to the same, although two of
them would create a namespace that is missing and one refuses to (`Handles.active_paths_coincide`).
-/

namespace LispCore

/-! ## Sorted tables -/

namespace Bindings

variable {α : Type} {b b' : Bindings α}

/-- The names stand in rising order, so none of them occurs twice. -/
def Sorted (b : Bindings α) : Prop := b.Pairwise fun p q => p.1 < q.1

theorem Sorted.insert (h : b.Sorted) (name : String) (value : α) :
    (b.insert name value).Sorted := by
  induction b with
  | nil => exact List.pairwise_singleton _ _
  | cons p rest ih =>
    obtain ⟨k, v⟩ := p
    obtain ⟨hhead, hrest⟩ := List.pairwise_cons.1 h
    unfold Bindings.insert
    split
    · next hk =>
      subst hk
      exact List.pairwise_cons.2 ⟨hhead, hrest⟩
    · next hk =>
      split
      · next hlt =>
        refine List.pairwise_cons.2 ⟨fun q hq => ?_, h⟩
        rcases List.mem_cons.1 hq with rfl | hq
        · exact hlt
        · exact String.lt_trans hlt (hhead q hq)
      · next hlt =>
        refine List.pairwise_cons.2 ⟨fun q hq => ?_, ih hrest⟩
        rcases mem_of_mem_insert hq with rfl | hq
        · exact Std.lt_of_le_of_ne (String.not_lt.1 hlt) hk
        · exact hhead q hq

theorem Sorted.map {β : Type} (h : b.Sorted) (f : α → β) :
    Sorted (b.map fun p => (p.1, f p.2)) :=
  List.pairwise_map.2 h

theorem find?_eq_none_of_lt {k : String} (h : ∀ p ∈ b, k < p.1) : b.find? k = none := by
  cases hfind : b.find? k with
  | none => rfl
  | some v => exact absurd (h _ (mem_of_find? hfind)) (String.lt_irrefl k)

/-- A table is determined by what is found in it. -/
theorem Sorted.ext (h : b.Sorted) (h' : b'.Sorted) (hfind : ∀ k, b.find? k = b'.find? k) :
    b = b' := by
  induction b generalizing b' with
  | nil =>
    cases b' with
    | nil => rfl
    | cons p' rest' => simpa [find?] using hfind p'.1
  | cons p rest ih =>
    obtain ⟨k, v⟩ := p
    obtain ⟨hhead, hrest⟩ := List.pairwise_cons.1 h
    cases b' with
    | nil => simpa [find?] using hfind k
    | cons p' rest' =>
      obtain ⟨k', v'⟩ := p'
      obtain ⟨hhead', hrest'⟩ := List.pairwise_cons.1 h'
      -- of two different first names the smaller one would be missing on the other side
      have hk : k = k' := by
        refine String.le_antisymm (String.not_lt.1 fun hlt => ?_) (String.not_lt.1 fun hlt => ?_)
        · have hmissing : ∀ q ∈ (k, v) :: rest, k' < q.1 := List.forall_mem_cons.2
            ⟨hlt, fun q hq => String.lt_trans hlt (hhead q hq)⟩
          have hk' := hfind k'
          rw [find?_eq_none_of_lt hmissing] at hk'
          simp [find?] at hk'
        · have hmissing : ∀ q ∈ (k', v') :: rest', k < q.1 := List.forall_mem_cons.2
            ⟨hlt, fun q hq => String.lt_trans hlt (hhead' q hq)⟩
          have hk := hfind k
          rw [find?_eq_none_of_lt hmissing] at hk
          simp [find?] at hk
      subst hk
      have hv : v = v' := by simpa [find?] using hfind k
      subst hv
      congr 1
      refine ih hrest hrest' fun q => ?_
      have hq := hfind q
      by_cases hkq : k = q
      · subst hkq
        rw [find?_eq_none_of_lt hhead, find?_eq_none_of_lt hhead']
      · simpa [find?, hkq] using hq

end Bindings

/-! ## What the globals of a root always are -/

/-- A name as it is bound: something, without blanks around it. -/
def Text.IsTrimmed (name : String) : Prop := allBlank name = false ∧ trim name = name

theorem Text.isTrimmed_trim {name : String} (h : allBlank name = false) :
    IsTrimmed (trim name) := by
  refine ⟨?_, trim_trim name⟩
  have hne : trimChars name.toList ≠ [] := fun hnil => by
    rw [allBlank, trimChars_eq_nil_iff.1 hnil] at h
    cases h
  rw [allBlank, ← Bool.not_eq_true, ← trimChars_eq_nil_iff, trim, String.toList_ofList,
    trimChars_trimChars]
  exact hne

/-- The active namespace exists, names are bound trimmed, and all tables are sorted. -/
structure Globals.Sound (g : Globals) : Prop where
  grounded : g.Grounded
  trimmed : ∀ table ∈ g.tables, ∀ entry ∈ table.2, Text.IsTrimmed entry.1
  sorted : g.tables.Sorted
  entries : ∀ table ∈ g.tables, Bindings.Sorted table.2

namespace Globals

variable {g g' : Globals}

theorem mem_namespaces {ns : String} : ns ∈ g.namespaces ↔ g.tables.contains ns = true :=
  Bindings.contains_iff_mem_keys.symm

theorem mem_namespaces_ensure {ns k : String} :
    k ∈ (g.ensure ns).namespaces ↔ k = ns ∨ k ∈ g.namespaces :=
  Bindings.mem_keys_insert ns k _ g.tables

theorem mem_namespaces_put {ns k name : String} {v : Value} :
    k ∈ (g.put ns name v).namespaces ↔ k = ns ∨ k ∈ g.namespaces :=
  Bindings.mem_keys_insert ns k _ g.tables

/-- A binding that succeeds writes an entry, in a namespace that exists if it was named. -/
theorem eq_put_of_define {space : Option String} {name : String} {v : Value}
    (h : g.define ⟨space, name⟩ v = .ok g') :
    Text.allBlank name = false ∧ space.all g.tables.contains = true ∧
      g' = g.put (space.getD g.active) (Text.trim name) v := by
  rw [define_eq] at h
  split at h
  · cases h
  · next hname =>
    split at h
    · next hspace =>
      cases h
      exact ⟨by simpa using hname, hspace, rfl⟩
    · cases h

/-- What an operation that succeeds does: it writes an entry, makes sure of a namespace, which may
become the active one, or empties all tables. -/
theorem exec_cases {op : GlobalsOp} (h : op.exec g = .ok g') :
    (∃ ns name v, Text.allBlank name = false ∧ g' = g.put ns (Text.trim name) v) ∨
    (∃ ns, g' = g.ensure ns ∨ g' = { g.ensure ns with active := ns }) ∨
    g' = g.clear := by
  cases op with
  | bind space name v =>
    obtain ⟨hname, -, rfl⟩ := eq_put_of_define h
    exact .inl ⟨_, name, v, hname, rfl⟩
  | create ns =>
    rw [GlobalsOp.exec, createNamespace_eq] at h
    split at h
    · cases h
    · cases h
      exact .inr (.inl ⟨_, .inl rfl⟩)
  | switch ns =>
    rw [GlobalsOp.exec, switchNamespace_eq] at h
    split at h
    · cases h
    · cases h
      exact .inr (.inl ⟨_, .inr rfl⟩)
  | clear =>
    cases h
    exact .inr (.inr rfl)

theorem mem_namespaces_clear {ns : String} : ns ∈ g.clear.namespaces ↔ ns ∈ g.namespaces := by
  rw [mem_namespaces, mem_namespaces, contains_clear]

/-- No operation removes a namespace. -/
theorem namespaces_after (g : Globals) (op : GlobalsOp) :
    g.namespaces ⊆ (g.after op).namespaces := by
  intro ns hns
  unfold Globals.after
  cases h : op.exec g with
  | error e => exact hns
  | ok g' =>
    obtain ⟨k, name, v, -, rfl⟩ | ⟨k, rfl | rfl⟩ | rfl := exec_cases h
    · exact mem_namespaces_put.2 (.inr hns)
    · exact mem_namespaces_ensure.2 (.inr hns)
    · exact mem_namespaces_ensure.2 (.inr hns)
    · exact mem_namespaces_clear.2 hns

theorem namespaces_replay (g : Globals) (past : History) :
    g.namespaces ⊆ (g.replay past).namespaces := by
  induction past with
  | nil => exact List.Subset.refl _
  | cons op past ih => exact List.Subset.trans ih ((g.replay past).namespaces_after op)

namespace Sound

theorem new (ns : String) : (ofNamespace ns).Sound where
  grounded := List.mem_singleton.2 rfl
  trimmed := List.forall_mem_singleton.2 nofun
  sorted := List.pairwise_singleton _ _
  entries := List.forall_mem_singleton.2 .nil

/-- The table of a namespace is trimmed and sorted, also if it is missing. -/
theorem table (h : g.Sound) (ns : String) :
    (∀ entry ∈ g.table ns, Text.IsTrimmed entry.1) ∧ (g.table ns).Sorted := by
  unfold Globals.table
  cases hfind : g.tables.find? ns with
  | none => exact ⟨nofun, .nil⟩
  | some table =>
    have hmem := Bindings.mem_of_find? hfind
    exact ⟨h.trimmed _ hmem, h.entries _ hmem⟩

/-- Replacing one table by a trimmed and sorted one keeps all tables so. -/
theorem insert (h : g.Sound) {active ns : String} {table : Bindings Value}
    (hactive : active = ns ∨ active ∈ g.namespaces)
    (htrimmed : ∀ entry ∈ table, Text.IsTrimmed entry.1) (hsorted : table.Sorted) :
    Sound ⟨active, g.tables.insert ns table⟩ where
  grounded := (Bindings.mem_keys_insert ns active _ g.tables).2 hactive
  trimmed t ht := by
    rcases Bindings.mem_of_mem_insert ht with rfl | ht
    · exact htrimmed
    · exact h.trimmed t ht
  sorted := h.sorted.insert ns table
  entries t ht := by
    rcases Bindings.mem_of_mem_insert ht with rfl | ht
    · exact hsorted
    · exact h.entries t ht

theorem clear (h : g.Sound) : g.clear.Sound where
  grounded := mem_namespaces_clear.2 h.grounded
  trimmed t ht := by
    obtain ⟨p, -, rfl⟩ := List.mem_map.1 ht
    exact nofun
  sorted := h.sorted.map fun _ => []
  entries t ht := by
    obtain ⟨p, -, rfl⟩ := List.mem_map.1 ht
    exact .nil

/-- One operation keeps globals sound. -/
theorem after (h : g.Sound) (op : GlobalsOp) : (g.after op).Sound := by
  unfold Globals.after
  cases hexec : op.exec g with
  | error e => exact h
  | ok g' =>
    obtain ⟨ns, name, v, hname, rfl⟩ | ⟨ns, rfl | rfl⟩ | rfl := exec_cases hexec
    · refine h.insert (.inr h.grounded) (fun entry hentry => ?_) ((h.table ns).2.insert _ v)
      rcases Bindings.mem_of_mem_insert hentry with rfl | hentry
      · exact Text.isTrimmed_trim hname
      · exact (h.table ns).1 entry hentry
    · exact h.insert (.inr h.grounded) (h.table ns).1 (h.table ns).2
    · exact h.insert (.inl rfl) (h.table ns).1 (h.table ns).2
    · exact h.clear

/-- Sound globals with the same active namespace, namespaces and entries are the same. -/
theorem ext (h : g.Sound) (h' : g'.Sound) (hactive : g.active = g'.active)
    (hknown : ∀ ns, g.tables.contains ns = g'.tables.contains ns)
    (hentry : ∀ ns name, g.bound? ns name = g'.bound? ns name) : g = g' := by
  have htable (ns : String) : g.table ns = g'.table ns :=
    (h.table ns).2.ext (h'.table ns).2 (hentry ns)
  have htables : g.tables = g'.tables := by
    refine h.sorted.ext h'.sorted fun ns => ?_
    have hsome := hknown ns
    have hsame := htable ns
    unfold Bindings.contains at hsome
    unfold Globals.table at hsame
    cases hfind : g.tables.find? ns with
    | none =>
      rw [hfind] at hsome
      exact (Option.isNone_iff_eq_none.1 (by simpa using hsome.symm)).symm
    | some t =>
      cases hfind' : g'.tables.find? ns with
      | none => rw [hfind, hfind'] at hsome; cases hsome
      | some t' =>
        rw [hfind, hfind'] at hsame
        exact congrArg some hsame
  cases g
  cases g'
  cases hactive
  cases htables
  rfl

end Sound

theorem Reachable.sound (h : g.Reachable) : g.Sound := by
  obtain ⟨first, past, rfl⟩ := h
  induction past with
  | nil => exact .new first
  | cons op past ih => exact ih.after op

/-- In the active namespace of sound globals, binding with and without naming it are the same. -/
theorem Sound.define_active (h : g.Sound) (name : String) (v : Value) :
    g.define ⟨some g.active, name⟩ v = g.define ⟨none, name⟩ v := by
  have hknown : g.tables.contains g.active = true := mem_namespaces.1 h.grounded
  rw [define_eq, define_eq]
  simp only [Option.all_some, Option.all_none, hknown, Option.getD_some, Option.getD_none]

/-- A name is found in the active namespace with and without naming it. -/
theorem resolveQualified_active_iff {name : String} {v : Value} :
    g.resolveQualified g.active name = .ok v ↔ g.findActive? name = some v := by
  unfold resolveQualified findActive?
  cases g.tables.find? g.active with
  | none => exact ⟨nofun, nofun⟩
  | some table =>
    dsimp only [Option.bind_some]
    cases table.find? name with
    | none => exact ⟨nofun, nofun⟩
    | some w => exact ⟨fun h => congrArg some (Except.ok.inj h), fun h => by cases h; rfl⟩

end Globals

/-! ## After any commands -/

namespace Handles

theorem length_roots_run (cs : List EnvCommand) (h : Handles) :
    h.store.roots.length ≤ (h.run cs).store.roots.length := by
  induction cs generalizing h with
  | nil => exact Nat.le_refl _
  | cons c cs ih => exact Nat.le_trans (c.length_roots_after h) (ih (c.after h))

/-- The globals of a root that was opened are those of its first namespace after the operations on
the root since. -/
theorem globals_opened (h : Handles) (target first : String) (cs : List EnvCommand) :
    let root := h.store.roots.length
    let start := (EnvCommand.new target first).after h
    root < (start.run cs).store.roots.length ∧ (start.run cs).store.globals root =
      (Globals.ofNamespace first).replay (start.history root cs) := by
  intro root start
  have hroot : root < start.store.roots.length := by
    change h.store.roots.length < (h.store.roots ++ [Globals.ofNamespace first]).length
    simp
  have hfirst : start.store.globals root = Globals.ofNamespace first := by
    change (h.store.roots ++ [Globals.ofNamespace first]).getD h.store.roots.length default = _
    simp
  exact ⟨Nat.lt_of_lt_of_le hroot (length_roots_run cs start), by rw [globals_run cs hroot, hfirst]⟩

theorem answered_value_iff {r : Except Error Value} {v : Value} :
    answered id (r.map EnvReply.value) = .ok (.value v) ↔ r = .ok v := by
  cases r with
  | error e => exact ⟨nofun, nofun⟩
  | ok w =>
    refine ⟨fun h => ?_, fun h => ?_⟩
    · injection h with h
      injection h with h
      exact congrArg Except.ok h
    · cases h; rfl

/-- A root finds a name exactly if its active namespace binds it. -/
theorem resolve_root_iff {id : Nat} {g : Globals} {name : String} {v : Value} :
    Env.resolve (.root id) g name = .ok v ↔ g.findActive? name = some v := by
  unfold Env.resolve
  cases g.findActive? name with
  | none => exact ⟨nofun, nofun⟩
  | some w => exact ⟨fun h => congrArg some (Except.ok.inj h), fun h => by cases h; rfl⟩

theorem exec_of_operates {c : EnvCommand} {h : Handles} {handle : String} {op : GlobalsOp}
    (hkind : c.kind = .operates handle op) {env : Env} (hfind : h.envs.find? handle = some env) :
    c.exec h = h.operating env.rootId op := by
  refine EnvCommand.exec_of_op ?_
  simp only [EnvCommand.op?, hkind, hfind, Option.map_some]

/-- After any commands on a root that was opened with any namespace: the active namespace exists,
no namespace is ever lost, and every bound name is something without blanks around it. Hence binding
through a handle of the root, binding a symbol without namespace and binding in the active namespace
by its name have the same result and lead to the same state, and looking a name up in the root finds
a value exactly when looking it up in the active namespace does, and then the same one. -/
theorem active_paths_coincide (h : Handles) (target first : String) (cs : List EnvCommand) :
    let root := h.store.roots.length
    let start := (EnvCommand.new target first).after h
    let now := start.run cs
    let g := now.store.globals root
    g.active ∈ g.namespaces ∧
    (∀ more, g.namespaces ⊆ ((now.run more).store.globals root).namespaces) ∧
    (∀ table ∈ g.tables, ∀ entry ∈ table.2,
      Text.allBlank entry.1 = false ∧ Text.trim entry.1 = entry.1) ∧
    ∀ handle other env, now.envs.find? handle = some (.root root) →
      now.envs.find? other = some env → env.rootId = root → ∀ name v,
        (EnvCommand.bind handle name v).exec now =
          (EnvCommand.bindGlobal other ⟨none, name⟩ v).exec now ∧
        (EnvCommand.bind handle name v).exec now =
          (EnvCommand.bindQualified other g.active name v).exec now ∧
        ((EnvCommand.resolve handle name).reply now = .ok (.value v) ↔
          (EnvCommand.resolveQualified other g.active name).reply now = .ok (.value v)) := by
  intro root start now g
  obtain ⟨hlength, hg⟩ := h.globals_opened target first cs
  have hsound : g.Sound := Globals.Reachable.sound ⟨first, _, hg⟩
  refine ⟨hsound.grounded, fun more => ?_, hsound.trimmed, ?_⟩
  · rw [globals_run more hlength]
    exact g.namespaces_replay _
  intro handle other env hhandle hother hroot name v
  have hbind : (EnvCommand.bind handle name v).op? now = some (root, .bind none name v) := by
    simp only [EnvCommand.op?, EnvCommand.kind, hhandle]
  refine ⟨?_, ?_, ?_⟩
  · rw [EnvCommand.exec_of_op hbind, exec_of_operates rfl hother, hroot]
  · have hsame : GlobalsOp.exec g (.bind (some g.active) name v) =
        GlobalsOp.exec g (.bind none name v) := hsound.define_active name v
    rw [EnvCommand.exec_of_op hbind, exec_of_operates rfl hother, hroot]
    unfold operating
    rw [hsame]
  · rw [reply_looks rfl hhandle, reply_looks rfl hother, hroot, answered_value_iff,
      answered_value_iff]
    exact resolve_root_iff.trans Globals.resolveQualified_active_iff.symm

/-- On a root whose first namespace has a blank name: adds a namespace, binds `x` and forgets it. -/
def blankStart : List EnvCommand :=
  [.child "f" "r" "f" [], .createNamespace "f" "lib", .bind "r" " x " (.int 1), .clearGlobals "r"]

theorem active_paths_coincide_blankStart :
    let now := ((EnvCommand.new "r" " ").after {}).run blankStart
    (EnvCommand.bind "r" " y" (.int 2)).reply now = .ok .ok ∧
    (EnvCommand.bind "r" " y" (.int 2)).exec now =
      (EnvCommand.bindQualified "f" " " " y" (.int 2)).exec now ∧
    ¬ (EnvCommand.resolve "r" "x").reply now = .ok (.value (.int 1)) ∧
    ¬ (EnvCommand.resolveQualified "f" " " "x").reply now = .ok (.value (.int 1)) := by
  intro now
  have hr : now.envs.find? "r" = some (.root 0) := rfl
  have hf : now.envs.find? "f" = some (.frame "f" [] (.root 0)) := rfl
  have hmissing : (EnvCommand.resolve "r" "x").reply now = .error (.error (.notFound "x")) := rfl
  obtain ⟨-, -, -, hpaths⟩ := active_paths_coincide {} "r" " " blankStart
  obtain ⟨-, hbind, -⟩ := hpaths "r" "f" _ hr hf rfl " y" (.int 2)
  obtain ⟨-, -, hfound⟩ := hpaths "r" "f" _ hr hf rfl "x" (.int 1)
  have hnot : ¬ (EnvCommand.resolve "r" "x").reply now = .ok (.value (.int 1)) := by
    rw [hmissing]
    intro h
    cases h
  exact ⟨rfl, hbind, hnot, fun h => hnot (hfound.2 h)⟩

end Handles

end LispCore
