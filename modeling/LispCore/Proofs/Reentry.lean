import LispCore.Proofs.HostGlobals
import LispCore.Proofs.Outcomes

/-!
# Going back to a namespace

Switching to a namespace drops the blanks around its name, as creating one does. So a namespace can
be entered again by its listed name exactly if there are no blanks around it, and this holds of all
namespaces that were created or switched to. Only the one that a root was opened with is taken as it
is given: if it is blank or padded, the root never comes back to it by its name
(`Handles.listed_namespaces_reenter`).

`Handles.Hosts` are the states in which a root is in use. In all of them its globals are what
operations have made of its first namespace (`Store.Follows`): every request keeps this
(`Store.Follows.answer`) and so does every command (`Store.Follows.command`).
-/

namespace LispCore

/-! ## Namespaces that are listed -/

namespace Globals

variable {g : Globals} {first : String}

theorem after_of_exec {op : GlobalsOp} {g' : Globals} (h : op.exec g = .ok g') :
    g.after op = g' := by
  unfold Globals.after
  rw [h]

theorem replay_append (g : Globals) (new past : History) :
    g.replay (new ++ past) = (g.replay past).replay new :=
  List.foldr_append

/-- Every namespace but the first one has a name without blanks around it. -/
theorem isTrimmed_of_mem_namespaces {past : History} {ns : String}
    (h : ns ∈ ((ofNamespace first).replay past).namespaces) (hne : ns ≠ first) :
    Text.IsTrimmed ns := by
  have hknown := mem_namespaces.1 h
  rw [(Recalls.replay first past).known, History.knows, beq_false_of_ne hne, Bool.false_or,
    List.any_eq_true] at hknown
  obtain ⟨op, -, hmakes⟩ := hknown
  -- what makes a namespace is creating it or switching to it, and both drop the blanks
  have htrimmed (given : String)
      (hgiven : (if Text.allBlank given then none else some (Text.trim given)) = some ns) :
      Text.IsTrimmed ns := by
    split at hgiven
    · cases hgiven
    · next hblank =>
      cases hgiven
      exact Text.isTrimmed_trim (Bool.eq_false_iff.2 hblank)
  cases op with
  | create given => exact htrimmed given (eq_of_beq hmakes)
  | switch given => exact htrimmed given (eq_of_beq hmakes)
  | bind | clear => cases hmakes

/-- A namespace that exists is not made anew. -/
theorem Sound.ensure_of_mem (h : g.Sound) {ns : String} (hns : ns ∈ g.namespaces) :
    g.ensure ns = g := by
  obtain ⟨table, htable⟩ := Option.isSome_iff_exists.1 (mem_namespaces.1 hns)
  have hsame : g.tables.insert ns (g.table ns) = g.tables := by
    refine (h.sorted.insert ns (g.table ns)).ext h.sorted fun k => ?_
    rw [Bindings.find?_insert]
    split
    · next hk =>
      subst hk
      rw [Globals.table, htable, Option.getD_some]
    · rfl
  unfold ensure
  rw [hsame]

theorem switch_of_not_blank (g : Globals) {ns : String} (h : Text.allBlank ns = false) :
    GlobalsOp.exec g (.switch ns) =
      .ok { g.ensure (Text.trim ns) with active := Text.trim ns } := by
  rw [GlobalsOp.exec, switchNamespace_eq, h]
  rfl

/-- Switching to a listed namespace only makes it active. -/
theorem Sound.switch_of_mem (h : g.Sound) {ns : String} (hns : ns ∈ g.namespaces)
    (htrimmed : Text.IsTrimmed ns) : GlobalsOp.exec g (.switch ns) = .ok { g with active := ns } := by
  rw [g.switch_of_not_blank htrimmed.1, htrimmed.2, h.ensure_of_mem hns]

/-- A root finds what its active namespace binds. -/
theorem lookup_root_iff {root : Nat} {name : String} {v : Value} :
    (Env.root root).lookup g (.ofBase name) = .ok v ↔ g.findActive? name = some v := by
  rw [Env.lookup_root, Globals.lookup, Symbol.ofBase]
  cases g.findActive? name <;> simp

end Globals

/-! ## Roots in use -/

namespace Store

/-- The root is in the store, and its globals are what operations have made of its first
namespace. -/
def Follows (first : String) (root : Nat) (s : Store) : Prop :=
  root < s.roots.length ∧ ∃ past, s.globals root = (Globals.ofNamespace first).replay past

namespace Follows

variable {first : String} {root : Nat} {s : Store}

theorem opened (s : Store) (first : String) :
    Follows first s.roots.length (s.addRoot (.ofNamespace first)).2 :=
  ⟨by simp [addRoot], [], by simp [globals, addRoot, Globals.replay]⟩

theorem answer (h : s.Follows first root) (r : Request) : (s.answer r).2.Follows first root := by
  obtain ⟨hlength, past, hpast⟩ := h
  obtain ⟨hlength, hsame | ⟨symbol, v, hdefine⟩⟩ := globals_answer hlength r
  · exact ⟨hlength, past, hsame.trans hpast⟩
  · rw [hpast] at hdefine
    have hexec : GlobalsOp.exec ((Globals.ofNamespace first).replay past)
        (.bind symbol.space symbol.base v) = .ok ((s.answer r).2.globals root) := hdefine
    exact ⟨hlength, .bind symbol.space symbol.base v :: past, (Globals.after_of_exec hexec).symm⟩

theorem command {h : Handles} (hs : h.store.Follows first root) (c : EnvCommand) :
    (c.after h).store.Follows first root := by
  obtain ⟨hroot, past, hpast⟩ := hs
  refine ⟨Nat.lt_of_lt_of_le hroot (c.length_roots_after h), (c.opOn? root h).toList ++ past, ?_⟩
  rw [c.globals_after hroot, hpast, Globals.replay_append]

end Follows

end Store

namespace Interpreter

variable {first : String} {root : Nat} (i : Interpreter)

theorem bind_preserves (name : String) (v : Value) :
    (i.bind name v : Run Unit).Preserves (Store.Follows first root) :=
  (Run.Preserves.request fun _ hs => hs.answer _).bind fun r => .ofExcept r

theorem register_preserves (name function : String) :
    (i.register name function : Run Unit).Preserves (Store.Follows first root) :=
  (Run.Preserves.request (r := .freshId) fun _ hs => hs.answer _).bind fun _ =>
    i.bind_preserves name _

end Interpreter

/-- What the host binds when it makes an interpreter are operations on the new root. -/
theorem Config.build_follows {c : Config} {s t : Store} {i : Interpreter}
    (h : c.build s = .ok i t) : t.Follows c.activeNamespace i.root := by
  let i' : Interpreter := ⟨s.roots.length, c.analyzer, c.maxDepth⟩
  let start := (s.addRoot (.ofNamespace c.activeNamespace)).2
  let rest : Run Interpreter := do
    c.builtins.forM fun b => i'.register b.name b.name
    i'.bindAll c.globals
    return i'
  have hrest : rest start = .ok i t := h
  have hpreserves : rest.Preserves (Store.Follows c.activeNamespace s.roots.length) := by
    refine Run.Preserves.bind (.forM fun b _ => i'.register_preserves b.name b.name) fun _ => ?_
    refine Run.Preserves.bind (.forM fun p _ => i'.bind_preserves p.1 p.2) fun _ => ?_
    exact .pure i'
  have hfinal := hpreserves start (.opened s c.activeNamespace)
  rw [Run.final_of_ok hrest] at hfinal
  obtain ⟨_, s₁, -, h₁⟩ := Run.bind_eq_ok hrest
  obtain ⟨_, s₂, -, h₂⟩ := Run.bind_eq_ok h₁
  have hi : i' = i := (EStateM.Result.ok.inj h₂).1
  rw [← hi]
  exact hfinal

namespace Handles

/-- The states in which a root that was opened with the namespace `first` is in use: it was opened by
itself or with an interpreter, and since then there have been commands and evaluations. -/
inductive Hosts (first : String) (root : Nat) : Handles → Prop where
  | opened (h : Handles) (target : String) (hroot : h.store.roots.length = root) :
    Hosts first root ((EnvCommand.new target first).after h)
  | built {c : Config} {s t : Store} {i : Interpreter} (hbuild : c.build s = .ok i t)
      (hfirst : c.activeNamespace = first) (hroot : i.root = root) (envs : Bindings Env)
      (captured : List (Option Env)) : Hosts first root ⟨t, envs, captured⟩
  | command {h : Handles} (hhosts : Hosts first root h) (c : EnvCommand) :
    Hosts first root (c.after h)
  | evaluated {h : Handles} (hhosts : Hosts first root h) (host : Host) (limit left : Nat)
      (env : Env) (e : Expr) :
    Hosts first root { h with store := Run.final (eval host limit left env e) h.store }

theorem Hosts.follows {first : String} {root : Nat} {h : Handles} (hhosts : Hosts first root h) :
    h.store.Follows first root := by
  induction hhosts with
  | opened h target hroot =>
    subst hroot
    exact .opened h.store first
  | built hbuild hfirst hroot envs captured =>
    subst hfirst hroot
    exact Config.build_follows hbuild
  | command _ c ih => exact ih.command c
  | evaluated _ host limit left env e ih =>
    exact Run.eval_preserves (fun r _ hs => hs.answer r) host limit left env e _ ih

theorem Hosts.run {first : String} {root : Nat} {h : Handles} (hhosts : Hosts first root h)
    (cs : List EnvCommand) : Hosts first root (h.run cs) := by
  induction cs generalizing h with
  | nil => exact hhosts
  | cons c cs ih => exact ih (hhosts.command c)

/-! ## Switching -/

variable {first : String} {root : Nat} {h : Handles} {handle ns : String} {env : Env}

theorem operating_of_exec {op : GlobalsOp} {g : Globals}
    (hexec : op.exec (h.store.globals root) = .ok g) :
    h.operating root op = .ok .ok { h with store := h.store.setGlobals root g } := by
  unfold operating
  rw [hexec]

/-- Where a root is in use, whatever namespace it was opened with, each namespace that it lists under
a name without blanks around it can be entered again through every handle over the root. The switch
changes nothing but the active namespace, and nothing at all if it was active, and then the root
finds by their names alone what is bound in the namespace. All listed names are such, except that
the first one may not be. If that is blank, it is refused, and if it is padded, the switch leads to
the namespace of the trimmed name. -/
theorem listed_namespaces_reenter (hhosts : Hosts first root h)
    (hfind : h.envs.find? handle = some env) (hroot : env.rootId = root)
    (hns : ns ∈ (h.store.globals root).namespaces) :
    let g := h.store.globals root
    let switched := (EnvCommand.switchNamespace handle ns).exec h
    (ns ≠ first → Text.IsTrimmed ns) ∧
    (Text.IsTrimmed ns → ∃ later, switched = .ok .ok later ∧
      later = { h with store := h.store.setGlobals root { g with active := ns } } ∧
      later.store.globals root = { g with active := ns } ∧
      (∀ name v, g.resolveQualified ns name = .ok v ↔
        (Env.root root).resolve (later.store.globals root) name = .ok v) ∧
      (∀ name v, g.resolveQualified ns name = .ok v ↔
        (Env.root root).lookup (later.store.globals root) (.ofBase name) = .ok v) ∧
      (ns = g.active → later = h)) ∧
    (Text.allBlank ns = true → switched = .error (.error (.invalidName ns)) h) ∧
    (Text.allBlank ns = false → Text.trim ns ≠ ns → ∃ later, switched = .ok .ok later ∧
      later.store.globals root = { g.ensure (Text.trim ns) with active := Text.trim ns }) := by
  intro g switched
  obtain ⟨hlength, past, hpast⟩ := hhosts.follows
  have hsound : g.Sound := Globals.Reachable.sound ⟨first, past, hpast⟩
  have hswitched : switched = h.operating root (.switch ns) := by
    rw [← hroot]
    exact exec_of_operates rfl hfind
  have hglobals (g' : Globals) : (h.store.setGlobals root g').globals root = g' :=
    Store.globals_setGlobals_self hlength g'
  refine ⟨fun hne => ?_, fun htrimmed => ?_, fun hblank => ?_, fun hblank _ => ?_⟩
  · rw [hpast] at hns
    exact Globals.isTrimmed_of_mem_namespaces hns hne
  · let g' : Globals := { g with active := ns }
    -- a lookup that names its namespace does not see which one is active
    have hqualified (name : String) : g.resolveQualified ns name = g'.resolveQualified ns name := rfl
    refine ⟨_, hswitched.trans (operating_of_exec (hsound.switch_of_mem hns htrimmed)), rfl,
      hglobals g', fun name v => ?_, fun name v => ?_, fun hactive => ?_⟩
    · rw [hglobals, hqualified]
      exact Globals.resolveQualified_active_iff.trans resolve_root_iff.symm
    · rw [hglobals, hqualified]
      exact Globals.resolveQualified_active_iff.trans Globals.lookup_root_iff.symm
    · subst hactive
      have hsame : h.store.setGlobals root g = h.store := Store.setGlobals_globals h.store root
      change { h with store := h.store.setGlobals root g } = h
      rw [hsame]
  · rw [hswitched, operating, GlobalsOp.exec, Globals.switchNamespace_eq, hblank]
    rfl
  · exact ⟨_, hswitched.trans (operating_of_exec (g.switch_of_not_blank hblank)), hglobals _⟩

/-- A root that was opened with the namespace ` a `, after binding `x` there and `y` in `lib`.
Its active namespace is `other`. -/
def paddedStart : Handles :=
  ((EnvCommand.new "r" " a ").after {}).run
    [.bind "r" "x" (.int 1), .switchNamespace "r" " lib", .bind "r" "y" (.int 2),
      .switchNamespace "r" "other"]

/-- The root finds `y` again once it is back in `lib`, and ends up in `a` on the way to ` a `. -/
theorem listed_namespaces_reenter_paddedStart :
    let g := paddedStart.store.globals 0
    g.namespaces = [" a ", "lib", "other"] ∧
    (∃ later, (EnvCommand.switchNamespace "r" "lib").exec paddedStart = .ok .ok later ∧
      later.store.globals 0 = { g with active := "lib" } ∧
      (Env.root 0).resolve (later.store.globals 0) "y" = .ok (.int 2)) ∧
    (∃ later, (EnvCommand.switchNamespace "r" " a ").exec paddedStart = .ok .ok later ∧
      (later.store.globals 0).active = "a") := by
  intro g
  have hhosts : Hosts " a " 0 paddedStart := (Hosts.opened {} "r" rfl).run _
  have hfind : paddedStart.envs.find? "r" = some (.root 0) := rfl
  have hlisted : g.namespaces = [" a ", "lib", "other"] := rfl
  have hlib : "lib" ∈ g.namespaces := by rw [hlisted]; decide
  have hpadded : " a " ∈ g.namespaces := by rw [hlisted]; decide
  refine ⟨hlisted, ?_, ?_⟩
  · obtain ⟨htrimmed, hreenter, -, -⟩ := listed_namespaces_reenter hhosts hfind rfl hlib
    obtain ⟨later, hswitched, -, hglobals, hresolve, -, -⟩ := hreenter (htrimmed (by decide))
    exact ⟨later, hswitched, hglobals, (hresolve "y" (.int 2)).1 rfl⟩
  · obtain ⟨-, -, -, hleave⟩ := listed_namespaces_reenter hhosts hfind rfl hpadded
    obtain ⟨later, hswitched, hglobals⟩ := hleave (by decide) (by decide)
    refine ⟨later, hswitched, ?_⟩
    rw [hglobals]
    rfl

/-- A root is not always brought back into a namespace by the name that it lists. -/
theorem padded_first_namespace_left : ¬ ∀ (first : String) (root : Nat) (h : Handles)
    (handle ns : String) (env : Env), Hosts first root h → h.envs.find? handle = some env →
    env.rootId = root → ns ∈ (h.store.globals root).namespaces →
    ∃ later, (EnvCommand.switchNamespace handle ns).exec h = .ok .ok later ∧
      (later.store.globals root).active = ns := by
  intro hall
  let h : Handles := (EnvCommand.new "r" " a ").after {}
  have hleft : (EnvCommand.switchNamespace "r" " a ").exec h =
      .ok .ok { h with store := h.store.setGlobals 0 ⟨"a", [(" a ", []), ("a", [])]⟩ } := rfl
  have hlisted : " a " ∈ [" a "] := by decide
  obtain ⟨later, hswitched, hactive⟩ :=
    hall " a " 0 h "r" " a " (.root 0) (.opened {} "r" rfl) rfl rfl hlisted
  rw [hleft] at hswitched
  cases hswitched
  have hne : "a" ≠ " a " := by decide
  exact hne hactive

end Handles

end LispCore
