import LispCore.Session.Handles

/-!
# The history of a root

The globals of a root are a map in which the last writer wins. A `GlobalsOp` is one operation on
them and a `History` the list of those made so far, the latest first. What a history says is read
off the list without any tables: the active namespace (`History.active`), the namespaces that exist
(`History.knows`), the answer to the next operation (`History.verdict`) and the value of an entry
(`History.latest`). `Recalls` says that globals are what a history says; one operation keeps it
(`Recalls.after`), so a run of commands through any handles does (`Handles.globals_run`).
-/

namespace LispCore

/-! ## Operations and what they add up to -/

/-- An operation on the globals of a root. -/
inductive GlobalsOp where
  /-- Binds in the given namespace, or else in the active one. -/
  | bind (space : Option String) (name : String) (value : Value)
  | create (ns : String)
  | switch (ns : String)
  | clear

namespace GlobalsOp

def exec (g : Globals) : GlobalsOp → Except Error Globals
  | bind space name v => g.define ⟨space, name⟩ v
  | create ns => g.createNamespace ns
  | switch ns => g.switchNamespace ns
  | clear => .ok g.clear

/-- The namespace that an operation makes sure of. -/
def makes? : GlobalsOp → Option String
  | create ns => if Text.allBlank ns then none else some (Text.trim ns)
  | switch ns => if Text.allBlank ns then none else some (Text.trim ns)
  | _ => none

end GlobalsOp

/-- The globals after an operation; one that fails leaves them alone. -/
def Globals.after (g : Globals) (op : GlobalsOp) : Globals :=
  match op.exec g with
  | .ok g' => g'
  | .error _ => g

/-- The operations on a root so far, the latest first. -/
abbrev History := List GlobalsOp

/-- The globals after all operations of a history. -/
def Globals.replay (g : Globals) (past : History) : Globals := past.foldr (fun op g => g.after op) g

/-- Globals that operations can lead to from those of a new root. -/
def Globals.Reachable (g : Globals) : Prop :=
  ∃ first past, g = (Globals.ofNamespace first).replay past

namespace History

variable (first : String)

/-- The active namespace: the one switched to last, or else the first one. -/
def active : History → String
  | [] => first
  | .switch ns :: past => if Text.allBlank ns then active past else Text.trim ns
  | _ :: past => active past

/-- A namespace exists if it is the first one or was created or switched to. -/
def knows (past : History) (ns : String) : Bool := ns == first || past.any (·.makes? == some ns)

/-- What an operation answers. -/
def verdict (past : History) : GlobalsOp → Except Error Unit
  | .bind space name _ =>
    if Text.allBlank name then .error (.invalidName name)
    else match space with
      | some ns => if knows first past ns then .ok () else .error (.namespaceNotFound ns)
      | none => .ok ()
  | .create ns => if Text.allBlank ns then .error (.invalidName ns) else .ok ()
  | .switch ns => if Text.allBlank ns then .error (.invalidName ns) else .ok ()
  | .clear => .ok ()

/-- The value of the latest successful binding of a name in a namespace since the globals were
cleared last. A binding without a namespace is one in the namespace that was active then. -/
def latest : History → String → String → Option Value
  | [], _, _ => none
  | .clear :: _, _, _ => none
  | .bind space key v :: past, ns, name =>
    if (verdict first past (.bind space key v)).isOk ∧ space.getD (active first past) = ns ∧
      Text.trim key = name then some v else latest past ns name
  | .create _ :: past, ns, name => latest past ns name
  | .switch _ :: past, ns, name => latest past ns name

/-- What a lookup in an explicit namespace answers. -/
def find (past : History) (ns name : String) : Except Error Value :=
  if knows first past ns then
    match latest first past ns name with
    | some v => .ok v
    | none => .error (.notFound (ns ++ "/" ++ name))
  else .error (.namespaceNotFound ns)

end History

/-! ## Tables -/

namespace Bindings

variable {α : Type}

theorem contains_insert (name k : String) (value : α) (b : Bindings α) :
    (b.insert name value).contains k = (b.contains k || name == k) := by
  unfold contains
  rw [find?_insert]
  by_cases h : name = k <;> simp [h]

end Bindings

namespace Globals

variable (g : Globals)

theorem table_ensure (ns k : String) : (g.ensure ns).table k = g.table k := by
  unfold ensure table
  rw [Bindings.find?_insert]
  by_cases h : ns = k <;> simp [h]

theorem table_clear (k : String) : g.clear.table k = [] := by
  unfold clear table
  rw [Bindings.find?_map fun _ => []]
  cases g.tables.find? k <;> rfl

theorem contains_clear (k : String) : g.clear.tables.contains k = g.tables.contains k := by
  unfold clear Bindings.contains
  rw [Bindings.find?_map fun _ => []]
  cases g.tables.find? k <;> rfl

theorem createNamespace_eq (ns : String) : g.createNamespace ns =
    if Text.allBlank ns then .error (.invalidName ns) else .ok (g.ensure (Text.trim ns)) := by
  unfold createNamespace
  rw [bindingName_eq]
  split <;> rfl

theorem switchNamespace_eq (ns : String) : g.switchNamespace ns =
    if Text.allBlank ns then .error (.invalidName ns)
    else .ok { g.ensure (Text.trim ns) with active := Text.trim ns } := by
  unfold switchNamespace
  rw [bindingName_eq]
  split <;> rfl

/-- A lookup in an explicit namespace, through the tables. -/
theorem resolveQualified_eq (ns name : String) : g.resolveQualified ns name =
    if g.tables.contains ns then
      match (g.table ns).find? name with
      | some v => .ok v
      | none => .error (.notFound (ns ++ "/" ++ name))
    else .error (.namespaceNotFound ns) := by
  unfold resolveQualified table Bindings.contains
  cases g.tables.find? ns with
  | none => rfl
  | some t => cases h : Bindings.find? name t <;> simp [h]

end Globals

/-! ## Globals are what their history says -/

/-- Globals of a root that started in the namespace `first` are what a history says. -/
structure Recalls (first : String) (past : History) (g : Globals) : Prop where
  active : g.active = History.active first past
  known (ns : String) : g.tables.contains ns = History.knows first past ns
  entry (ns name : String) : (g.table ns).find? name = History.latest first past ns name

theorem Recalls.new (first : String) : Recalls first [] (Globals.ofNamespace first) where
  active := rfl
  known ns := by
    by_cases h : first = ns
    · subst h; simp [Globals.ofNamespace, Bindings.contains, Bindings.find?, History.knows]
    · simp [Globals.ofNamespace, Bindings.contains, Bindings.find?, History.knows, h, Ne.symm h]
  entry ns name := by
    by_cases h : first = ns <;>
      simp [Globals.ofNamespace, Globals.table, Bindings.find?, History.latest, h]

namespace History

variable (first : String) (op : GlobalsOp) (past : History)

theorem knows_cons (ns : String) :
    knows first (op :: past) ns = (knows first past ns || op.makes? == some ns) := by
  simp only [knows, List.any_cons, Bool.or_comm, Bool.or_left_comm]

theorem knows_active : knows first past (active first past) = true := by
  induction past with
  | nil => simp [active, knows]
  | cons op past ih =>
    rw [knows_cons, Bool.or_eq_true]
    cases op with
    | switch ns =>
      by_cases hblank : Text.allBlank ns = true
      · exact .inl (by simpa [active, hblank] using ih)
      · exact .inr (by simp [active, GlobalsOp.makes?, hblank])
    | _ => exact .inl ih

end History

namespace Recalls

variable {first : String} {past : History} {g : Globals}

/-- A binding succeeds in the same cases on both sides. -/
theorem verdict_bind (h : Recalls first past g) (space : Option String) (name : String)
    (v : Value) : History.verdict first past (.bind space name v) =
      if Text.allBlank name then .error (.invalidName name)
      else if space.all g.tables.contains then .ok ()
      else .error (.namespaceNotFound (space.getD g.active)) := by
  cases space with
  | none => rfl
  | some ns => simp only [History.verdict, Option.all_some, h.known, Option.getD_some]

/-- An operation answers as its history says. -/
theorem exec (h : Recalls first past g) (op : GlobalsOp) :
    (op.exec g).map (fun _ => ()) = History.verdict first past op := by
  cases op with
  | bind space name v =>
    rw [h.verdict_bind, GlobalsOp.exec, Globals.define_eq]
    split
    · rfl
    · split <;> rfl
  | create ns =>
    rw [GlobalsOp.exec, Globals.createNamespace_eq, History.verdict]
    split <;> rfl
  | switch ns =>
    rw [GlobalsOp.exec, Globals.switchNamespace_eq, History.verdict]
    split <;> rfl
  | clear => rfl

/-- A failed operation leaves no trace in the history either. -/
theorem skip (h : Recalls first past g) {op : GlobalsOp} (hmakes : op.makes? = none)
    (hactive : History.active first (op :: past) = History.active first past)
    (hlatest : History.latest first (op :: past) = History.latest first past) :
    Recalls first (op :: past) g where
  active := by rw [hactive, h.active]
  known ns := by rw [History.knows_cons, hmakes, h.known]; simp
  entry ns name := by rw [hlatest, h.entry]

theorem known_ensure (h : Recalls first past g) (op : GlobalsOp) {ns : String}
    (hmakes : op.makes? = some ns) (k : String) :
    (g.ensure ns).tables.contains k = History.knows first (op :: past) k := by
  rw [Globals.ensure, Bindings.contains_insert, History.knows_cons, hmakes, h.known]
  rfl

theorem put (h : Recalls first past g) {space : Option String} {name : String} {v : Value}
    (hname : Text.allBlank name = false) (hspace : space.all g.tables.contains = true) :
    Recalls first (.bind space name v :: past) (g.put (space.getD g.active) (Text.trim name) v) := by
  have hverdict : History.verdict first past (.bind space name v) = .ok () := by
    rw [h.verdict_bind, hname, hspace]; rfl
  have hknown : g.tables.contains (space.getD g.active) = true := by
    cases space with
    | none => rw [Option.getD_none, h.known, h.active, History.knows_active]
    | some ns => exact hspace
  refine ⟨h.active, fun ns => ?_, fun ns key => ?_⟩
  · simp only [Globals.put, Bindings.contains_insert, History.knows_cons, GlobalsOp.makes?]
    by_cases hns : space.getD g.active = ns
    · subst hns; simp [← h.known, hknown]
    · simp [h.known, hns]
  · rw [Globals.table_put, History.latest, hverdict, ← h.active]
    by_cases hns : space.getD g.active = ns
    · subst hns
      simp [Bindings.find?_insert, h.entry, Except.isOk, Except.toBool]
    · simp [hns, h.entry]

/-- One operation keeps globals what their history says. -/
theorem after (h : Recalls first past g) (op : GlobalsOp) :
    Recalls first (op :: past) (g.after op) := by
  unfold Globals.after
  cases op with
  | bind space name v =>
    have hfail (e : Error) (hverdict : History.verdict first past (.bind space name v) = .error e) :
        Recalls first (.bind space name v :: past) g := by
      refine h.skip rfl rfl ?_
      funext ns key
      rw [History.latest, hverdict]
      exact if_neg fun hok => by cases hok.1
    rw [GlobalsOp.exec, Globals.define_eq]
    by_cases hname : Text.allBlank name = true
    · rw [if_pos hname]
      exact hfail _ (by rw [h.verdict_bind, if_pos hname])
    · rw [if_neg hname]
      by_cases hspace : space.all g.tables.contains = true
      · rw [if_pos hspace]
        exact h.put (by simpa using hname) hspace
      · rw [if_neg hspace]
        exact hfail _ (by rw [h.verdict_bind, if_neg hname, if_neg hspace])
  | create ns =>
    rw [GlobalsOp.exec, Globals.createNamespace_eq]
    by_cases hname : Text.allBlank ns = true
    · rw [if_pos hname]
      exact h.skip (by simp [GlobalsOp.makes?, hname]) rfl rfl
    · rw [if_neg hname]
      have hmakes : (GlobalsOp.create ns).makes? = some (Text.trim ns) := if_neg hname
      refine ⟨h.active, h.known_ensure _ hmakes, fun k name => ?_⟩
      rw [Globals.table_ensure, h.entry]; rfl
  | switch ns =>
    rw [GlobalsOp.exec, Globals.switchNamespace_eq]
    by_cases hname : Text.allBlank ns = true
    · rw [if_pos hname]
      exact h.skip (by simp [GlobalsOp.makes?, hname]) (by simp [History.active, hname]) rfl
    · rw [if_neg hname]
      dsimp only
      have hmakes : (GlobalsOp.switch ns).makes? = some (Text.trim ns) := if_neg hname
      have hentry (k name : String) : ((g.ensure (Text.trim ns)).table k).find? name =
          History.latest first past k name := by rw [Globals.table_ensure, h.entry]
      exact ⟨by simp [History.active, hname], h.known_ensure (.switch ns) hmakes, hentry⟩
  | clear =>
    have hknown (ns : String) : g.clear.tables.contains ns =
        History.knows first (.clear :: past) ns := by
      simp [Globals.contains_clear, h.known, History.knows_cons, GlobalsOp.makes?]
    have hentry (ns name : String) : (g.clear.table ns).find? name = none := by
      rw [Globals.table_clear]; rfl
    exact ⟨h.active, hknown, hentry⟩

theorem replay (first : String) (past : History) :
    Recalls first past ((Globals.ofNamespace first).replay past) := by
  induction past with
  | nil => exact new first
  | cons op past ih => exact ih.after op

theorem resolveQualified (h : Recalls first past g) (ns name : String) :
    g.resolveQualified ns name = History.find first past ns name := by
  rw [Globals.resolveQualified_eq, h.known, h.entry]
  rfl

end Recalls

/-! ## Commands through handles -/

/-- What holds an environment: a handle, or a closure or task, by its number. -/
inductive Holder where
  | handle (name : String)
  | captured (index : Nat)
  deriving DecidableEq

/-- What a command does, whatever it is called: it opens a root, derives a handle from what is held,
looks at an environment, binds through a handle, operates on the globals behind one, lets a closure
or task hold an environment, or lets it go. -/
inductive CommandKind where
  | opens (target ns : String)
  | derives (target : String) (source : Holder) (f : Env → Option Env)
  | looks (handle : String) (f : Env → Globals → Except Error EnvReply)
  | binds (handle key : String) (value : Value)
  | operates (handle : String) (op : GlobalsOp)
  | captures (handle : String) (f : Env → Env)
  | releases (index : Nat)

def EnvCommand.kind : EnvCommand → CommandKind
  | new target ns => .opens target ns
  | child target handle name vars =>
    .derives target (.handle handle) fun env => some (env.child name (Bindings.ofPairs vars))
  | clone target handle => .derives target (.handle handle) some
  | root target handle => .derives target (.handle handle) fun env => some (.root env.rootId)
  | parent target handle => .derives target (.handle handle) Env.parent?
  | info handle => .looks handle fun env g => .ok (.info (Handles.describe env g))
  | bind handle key v => .binds handle key v
  | resolve handle name => .looks handle fun env g => (env.resolve g name).map .value
  | lookup handle symbol => .looks handle fun env g => (env.lookup g symbol).map .value
  | resolveQualified handle ns name =>
    .looks handle fun _ g => (g.resolveQualified ns name).map .value
  | bindQualified handle ns name v => .operates handle (.bind (some ns) name v)
  | bindGlobal handle symbol v => .operates handle (.bind symbol.space symbol.base v)
  | switchNamespace handle ns => .operates handle (.switch ns)
  | createNamespace handle ns => .operates handle (.create ns)
  | clearGlobals handle => .operates handle .clear
  | capture handle => .captures handle id
  | launch handle => .captures handle fun env => env.child Level.goFrame []
  | reopen target index => .derives target (.captured index) some
  | release index => .releases index

namespace Holder

/-- The failure if there is no such holder. -/
def missing : Holder → Failure
  | handle name => .unknownHandle name
  | captured index => .notCaptured index

/-- What a holder has, among what has been named and what has been captured. -/
def find? {α : Type} (named : Bindings α) (kept : List (Option α)) : Holder → Option α
  | handle name => named.find? name
  | captured index => kept[index]?.join

end Holder

namespace Handles

/-- The outcome of a command on environments. -/
abbrev Result := EStateM.Result Failure Handles EnvReply

def stateOf : Result → Handles
  | .ok _ h => h
  | .error _ h => h

def replyOf : Result → Except Failure EnvReply
  | .ok r _ => .ok r
  | .error e _ => .error e

variable (h : Handles)

/-- The environment that a holder has. -/
def held (holder : Holder) : Option Env := holder.find? h.envs h.captured

/-- Goes through a holder, which has to exist. -/
def through (holder : Holder) (k : Env → Result) : Result :=
  match h.held holder with
  | some env => k env
  | none => .error holder.missing h

/-- Answers, or fails, and leaves everything as it is. -/
def answering : Except Error EnvReply → Result
  | .ok r => .ok r h
  | .error e => .error (.error e) h

/-- The state with a handle set. -/
def put (handle : String) (env : Env) : Handles := { h with envs := h.envs.insert handle env }

/-- The state with a new root behind a handle. -/
def opened (target ns : String) : Handles :=
  { h with
    store := (h.store.addRoot (.ofNamespace ns)).2
    envs := h.envs.insert target (.root h.store.roots.length) }

/-- The state with one more environment captured. -/
def keep (env : Env) : Handles := { h with captured := h.captured ++ [some env] }

/-- The state in which a closure or task is gone. -/
def drop (index : Nat) : Handles := { h with captured := h.captured.set index none }

/-- Carries out an operation on the globals of a root. -/
def operating (root : Nat) (op : GlobalsOp) : Result :=
  match op.exec (h.store.globals root) with
  | .ok g => .ok .ok { h with store := h.store.setGlobals root g }
  | .error e => .error (.error e) h

/-- Binds through a handle: in the globals if it is one of a root, else in a new version of its
frame. -/
def binding (handle key : String) (v : Value) : Env → Result
  | .root id => h.operating id (.bind none key v)
  | .frame n vars p =>
    if Text.allBlank key then .error (.error (.invalidName key)) h
    else .ok .ok (h.put handle (.frame n (Bindings.insert (Text.trim key) v vars) p))

end Handles

open Handles in
/-- What a command does, as one function of the state. -/
def CommandKind.exec (h : Handles) : CommandKind → Handles.Result
  | opens target ns => .ok (.frame Env.rootName) (h.opened target ns)
  | derives target source f => h.through source fun env =>
    match f env with
    | some env' => .ok (.frame env'.name) (h.put target env')
    | none => .ok .absent h
  | looks handle f => h.through (.handle handle) fun env =>
    h.answering (f env (h.store.globals env.rootId))
  | binds handle key v => h.through (.handle handle) (h.binding handle key v)
  | operates handle op => h.through (.handle handle) fun env => h.operating env.rootId op
  | captures handle f => h.through (.handle handle) fun env => .ok .ok (h.keep (f env))
  | releases index => .ok .ok (h.drop index)

namespace Handles

theorem find_bind {α : Type} (handle : String) (k : Env → Action α) (h : Handles) :
    (find handle >>= k) h = match h.envs.find? handle with
      | some env => k env h
      | none => .error (.unknownHandle handle) h := by
  have hfind : find handle h = match h.envs.find? handle with
      | some env => .ok env h
      | none => .error (.unknownHandle handle) h := by
    change (match h.envs.find? handle with
      | some env => (Pure.pure env : Action Env)
      | none => throw (Failure.unknownHandle handle)) h = _
    cases h.envs.find? handle <;> rfl
  change EStateM.bind (find handle) k h = _
  unfold EStateM.bind
  rw [hfind]
  cases h.envs.find? handle <;> rfl

theorem check_bind {α β : Type} (r : Except Error α) (k : α → Action β) (h : Handles) :
    (check r >>= k) h = match r with
      | .ok a => k a h
      | .error e => .error (.error e) h := by
  cases r <;> rfl

theorem find_bind_eq {handle : String} {k : Env → Action EnvReply} {h : Handles}
    {k' : Env → Result} (hk : ∀ env, k env h = k' env) :
    (find handle >>= k) h = h.through (.handle handle) k' := by
  rw [find_bind]
  simp only [through, held, Holder.find?]
  cases h.envs.find? handle with
  | none => rfl
  | some env => exact hk env

theorem findCaptured_bind_eq {index : Nat} {k : Env → Action EnvReply} {h : Handles}
    {k' : Env → Result} (hk : ∀ env, k env h = k' env) :
    (findCaptured index >>= k) h = h.through (.captured index) k' := by
  have hfind : findCaptured index h = match h.captured[index]?.join with
      | some env => .ok env h
      | none => .error (.notCaptured index) h := by
    change (match h.captured[index]?.join with
      | some env => (Pure.pure env : Action Env)
      | none => throw (Failure.notCaptured index)) h = _
    cases h.captured[index]?.join <;> rfl
  change EStateM.bind (findCaptured index) k h = _
  unfold EStateM.bind
  rw [hfind]
  simp only [through, held, Holder.find?]
  cases h.captured[index]?.join with
  | none => rfl
  | some env => exact hk env

theorem check_value (r : Except Error Value) (h : Handles) :
    (check r >>= fun v => (pure (EnvReply.value v) : Action EnvReply)) h =
      h.answering (r.map .value) := by
  cases r <;> rfl

theorem update_eq (env : Env) (op : GlobalsOp) (h : Handles) :
    update env (fun g => op.exec g) h = h.operating env.rootId op := by
  change (check (op.exec (h.store.globals env.rootId)) >>= _) h = _
  rw [check_bind, operating]
  cases op.exec (h.store.globals env.rootId) <;> rfl

theorem bind_eq (handle : String) (env : Env) (key : String) (v : Value) (h : Handles) :
    Handles.bind handle env key v h = h.binding handle key v env := by
  cases env with
  | root id =>
    change update (.root id) (fun g => GlobalsOp.exec g (.bind none key v)) h = _
    rw [update_eq]
    rfl
  | frame n vars p =>
    change (check (bindingName key) >>= _) h = _
    rw [check_bind, bindingName_eq, binding]
    by_cases hblank : Text.allBlank key = true
    · rw [if_pos hblank, if_pos hblank]
    · rw [if_neg hblank, if_neg hblank]
      rfl

end Handles

open Handles in
theorem EnvCommand.exec_eq (c : EnvCommand) (h : Handles) : c.exec h = c.kind.exec h := by
  have hglobal (handle : String) (op : GlobalsOp) :
      (find handle >>= fun env => update env fun g => op.exec g) h =
        h.through (.handle handle) fun env => h.operating env.rootId op :=
    find_bind_eq fun env => update_eq env op h
  cases c with
  | new target ns => rfl
  | release index => rfl
  | child | clone | root | info | capture | launch => exact find_bind_eq fun env => rfl
  | reopen target index => exact findCaptured_bind_eq fun env => rfl
  | parent =>
    refine find_bind_eq fun env => ?_
    cases env <;> rfl
  | bind handle key v => exact find_bind_eq fun env => bind_eq handle env key v h
  | resolve handle name =>
    exact find_bind_eq fun env => check_value (env.resolve (h.store.globals env.rootId) name) h
  | lookup handle symbol =>
    exact find_bind_eq fun env => check_value (env.lookup (h.store.globals env.rootId) symbol) h
  | resolveQualified handle ns name =>
    exact find_bind_eq fun env =>
      check_value ((h.store.globals env.rootId).resolveQualified ns name) h
  | bindQualified handle ns name v => exact hglobal handle (.bind (some ns) name v)
  | bindGlobal handle symbol v => exact hglobal handle (.bind symbol.space symbol.base v)
  | switchNamespace handle ns => exact hglobal handle (.switch ns)
  | createNamespace handle ns => exact hglobal handle (.create ns)
  | clearGlobals handle => exact hglobal handle .clear

/-! ## The history of a root -/

/-- The state that a command leaves, also when it fails. -/
def EnvCommand.after (c : EnvCommand) (h : Handles) : Handles := Handles.stateOf (c.exec h)

/-- What a command answers. -/
def EnvCommand.reply (c : EnvCommand) (h : Handles) : Except Failure EnvReply :=
  Handles.replyOf (c.exec h)

/-- The operation on globals that a command is, with its root. Binding is one through the handle of
a root only. -/
def EnvCommand.op? (h : Handles) (c : EnvCommand) : Option (Nat × GlobalsOp) :=
  match c.kind with
  | .operates handle op => (h.envs.find? handle).map fun env => (env.rootId, op)
  | .binds handle key v => match h.envs.find? handle with
    | some (.root id) => some (id, .bind none key v)
    | _ => none
  | _ => none

/-- The operation on the globals of one root that a command is. -/
def EnvCommand.opOn? (root : Nat) (h : Handles) (c : EnvCommand) : Option GlobalsOp :=
  match c.op? h with
  | some (r, op) => if r = root then some op else none
  | none => none

namespace Handles

/-- The state after commands in order. -/
def run (h : Handles) (cs : List EnvCommand) : Handles := cs.foldl (fun h c => c.after h) h

/-- The history of a root over commands in order. -/
def history (root : Nat) : Handles → List EnvCommand → History
  | _, [] => []
  | h, c :: cs => history root (c.after h) cs ++ (c.opOn? root h).toList

/-- The state after an operation on the globals of a root. -/
def operate (h : Handles) (root : Nat) (op : GlobalsOp) : Handles :=
  { h with store := h.store.setGlobals root ((h.store.globals root).after op) }

end Handles

namespace Store

variable {s : Store} {root k : Nat}

theorem setGlobals_globals (s : Store) (root : Nat) : s.setGlobals root (s.globals root) = s := by
  have hset : s.roots.set root (s.globals root) = s.roots := by
    apply List.ext_getElem?
    intro k
    by_cases hk : root = k
    · subst hk
      by_cases hroot : root < s.roots.length <;> simp [Store.globals, hroot]
    · simp [hk]
  unfold setGlobals
  rw [hset]

theorem globals_setGlobals_ne (g : Globals) (h : root ≠ k) :
    (s.setGlobals root g).globals k = s.globals k := by
  simp [globals, setGlobals, h]

theorem globals_addRoot (g : Globals) (h : root < s.roots.length) :
    (s.addRoot g).2.globals root = s.globals root := by
  simp [globals, addRoot, List.getElem?_append_left h]

end Store

/-- What a command leaves, as one function of the state. -/
def CommandKind.after (h : Handles) : CommandKind → Handles
  | opens target ns => h.opened target ns
  | derives target source f => match (h.held source).bind f with
    | some env => h.put target env
    | none => h
  | looks _ _ => h
  | binds handle key v => match h.envs.find? handle with
    | some (.frame n vars p) =>
      if Text.allBlank key then h
      else h.put handle (.frame n (Bindings.insert (Text.trim key) v vars) p)
    | some (.root id) => h.operate id (.bind none key v)
    | none => h
  | operates handle op => match h.envs.find? handle with
    | some env => h.operate env.rootId op
    | none => h
  | captures handle f => match h.envs.find? handle with
    | some env => h.keep (f env)
    | none => h
  | releases index => h.drop index

namespace EnvCommand

variable {c : EnvCommand} {h : Handles} {root : Nat} {op : GlobalsOp}

theorem stateOf_operating (h : Handles) (root : Nat) (op : GlobalsOp) :
    Handles.stateOf (h.operating root op) = h.operate root op := by
  rw [Handles.operating, Handles.operate, Globals.after]
  cases op.exec (h.store.globals root) with
  | ok g => rfl
  | error e => dsimp only; rw [Store.setGlobals_globals]; rfl

theorem after_eq (c : EnvCommand) (h : Handles) : c.after h = c.kind.after h := by
  rw [after, exec_eq]
  cases c.kind with
  | opens target ns => rfl
  | derives target source f =>
    simp only [CommandKind.exec, CommandKind.after, Handles.through]
    cases h.held source with
    | none => rfl
    | some env => cases hf : f env <;> simp only [hf, Option.bind_some] <;> rfl
  | looks handle f =>
    simp only [CommandKind.exec, CommandKind.after, Handles.through, Handles.held, Holder.find?]
    cases h.envs.find? handle with
    | none => rfl
    | some env => cases hf : f env (h.store.globals env.rootId) <;> simp only [hf] <;> rfl
  | binds handle key v =>
    simp only [CommandKind.exec, CommandKind.after, Handles.through, Handles.held, Holder.find?]
    cases h.envs.find? handle with
    | none => rfl
    | some env =>
      cases env with
      | root id =>
        dsimp only [Handles.binding]
        exact stateOf_operating h id _
      | frame n vars p =>
        simp only [Handles.binding]
        by_cases hblank : Text.allBlank key = true
        · rw [if_pos hblank, if_pos hblank]; rfl
        · rw [if_neg hblank, if_neg hblank]; rfl
  | operates handle op =>
    simp only [CommandKind.exec, CommandKind.after, Handles.through, Handles.held, Holder.find?]
    cases h.envs.find? handle with
    | none => rfl
    | some env => exact stateOf_operating h env.rootId op
  | captures handle f =>
    simp only [CommandKind.exec, CommandKind.after, Handles.through, Handles.held, Holder.find?]
    cases h.envs.find? handle <;> rfl
  | releases index => rfl

theorem exec_of_op (hop : c.op? h = some (root, op)) : c.exec h = h.operating root op := by
  unfold op? at hop
  rw [exec_eq]
  cases hkind : c.kind with
  | operates handle op' =>
    rw [hkind] at hop
    obtain ⟨env, hfind, hop⟩ := Option.map_eq_some_iff.1 hop
    cases hop
    simp only [CommandKind.exec, Handles.through, Handles.held, Holder.find?, hfind]
  | binds handle key v =>
    rw [hkind] at hop
    dsimp only at hop
    split at hop
    · next hfind =>
      cases hop
      simp only [CommandKind.exec, Handles.through, Handles.held, Holder.find?, hfind, Handles.binding]
    · cases hop
  | _ => rw [hkind] at hop; cases hop

/-- A command that is no operation on globals leaves those of the roots there are. -/
theorem store_of_no_op (hop : c.op? h = none) :
    (c.after h).store = h.store ∨ ∃ g, (c.after h).store = (h.store.addRoot g).2 := by
  unfold op? at hop
  rw [after_eq]
  cases hkind : c.kind with
  | opens target ns => exact .inr ⟨_, rfl⟩
  | derives target source f =>
    simp only [CommandKind.after]
    split
    · exact .inl rfl
    · exact .inl rfl
  | looks handle f => exact .inl rfl
  | binds handle key v =>
    simp only [hkind] at hop
    simp only [CommandKind.after]
    split
    · split
      · exact .inl rfl
      · exact .inl rfl
    · next hfind => rw [hfind] at hop; cases hop
    · exact .inl rfl
  | operates handle op =>
    simp only [hkind, Option.map_eq_none_iff] at hop
    rw [CommandKind.after, hop]
    exact .inl rfl
  | captures handle f =>
    simp only [CommandKind.after]
    split
    · exact .inl rfl
    · exact .inl rfl
  | releases index => exact .inl rfl

theorem length_roots_after (c : EnvCommand) (h : Handles) :
    h.store.roots.length ≤ (c.after h).store.roots.length := by
  cases hop : c.op? h with
  | none =>
    rcases store_of_no_op hop with hstore | ⟨g, hstore⟩
    · exact Nat.le_of_eq (by rw [hstore])
    · rw [hstore]
      simp [Store.addRoot]
  | some p =>
    rw [after, exec_of_op hop, stateOf_operating]
    simp [Handles.operate, Store.setGlobals]

/-- A command does to the globals of a root what its operation on them does. -/
theorem globals_after (c : EnvCommand) (hroot : root < h.store.roots.length) :
    (c.after h).store.globals root = (h.store.globals root).replay (c.opOn? root h).toList := by
  unfold opOn?
  cases hop : c.op? h with
  | none =>
    rcases store_of_no_op hop with hstore | ⟨g, hstore⟩
    · rw [hstore]; rfl
    · rw [hstore]; exact Store.globals_addRoot g hroot
  | some p =>
    obtain ⟨r, op⟩ := p
    rw [after, exec_of_op hop, stateOf_operating]
    simp only [Handles.operate]
    by_cases hr : r = root
    · subst hr
      rw [Store.globals_setGlobals _ r hroot, if_pos rfl, if_pos rfl]
      rfl
    · rw [if_neg hr]
      exact Store.globals_setGlobals_ne _ hr

theorem eq_of_operating_error {h' : Handles} {e : Failure}
    (he : h.operating root op = .error e h') : h' = h := by
  unfold Handles.operating at he
  split at he
  · cases he
  · cases he; rfl

theorem eq_of_exec_error {h' : Handles} {e : Failure} (he : c.exec h = .error e h') : h' = h := by
  have hthrough {holder : Holder} {k : Env → Handles.Result}
      (hk : ∀ env, k env = .error e h' → h' = h) (he : h.through holder k = .error e h') :
      h' = h := by
    unfold Handles.through at he
    split at he
    · exact hk _ he
    · cases he; rfl
  rw [exec_eq] at he
  cases hkind : c.kind with
  | opens target ns => rw [hkind] at he; cases he
  | derives target source f =>
    rw [hkind] at he
    refine hthrough (fun env he => ?_) he
    split at he <;> cases he
  | looks handle f =>
    rw [hkind] at he
    refine hthrough (fun env he => ?_) he
    unfold Handles.answering at he
    split at he
    · cases he
    · cases he; rfl
  | binds handle key v =>
    rw [hkind] at he
    refine hthrough (fun env he => ?_) he
    cases env with
    | root id =>
      rw [Handles.binding] at he
      exact eq_of_operating_error he
    | frame n vars p =>
      simp only [Handles.binding] at he
      by_cases hblank : Text.allBlank key = true
      · rw [if_pos hblank] at he; cases he; rfl
      · rw [if_neg hblank] at he; cases he
  | operates handle op =>
    rw [hkind] at he
    exact hthrough (fun env he => eq_of_operating_error he) he
  | captures handle f =>
    rw [hkind] at he
    exact hthrough (fun env he => by cases he) he
  | releases index => rw [hkind] at he; cases he

/-- A command that fails changes nothing. -/
theorem after_of_error {e : Failure} (he : c.reply h = .error e) : c.after h = h := by
  unfold reply at he
  unfold after
  cases hexec : c.exec h with
  | ok r h' => rw [hexec] at he; cases he
  | error e h' => exact eq_of_exec_error hexec

end EnvCommand

namespace Handles

/-- The globals of a root are what the commands on it add up to, whatever handles they went
through and whatever was done to other roots and to frames in between. -/
theorem globals_run {root : Nat} (cs : List EnvCommand) {h : Handles}
    (hroot : root < h.store.roots.length) :
    (h.run cs).store.globals root = (h.store.globals root).replay (h.history root cs) := by
  induction cs generalizing h with
  | nil => rfl
  | cons c cs ih =>
    have hrest := ih (Nat.lt_of_lt_of_le hroot (c.length_roots_after h))
    rw [c.globals_after hroot] at hrest
    simp only [run, List.foldl_cons, history] at hrest ⊢
    rw [hrest]
    simp only [Globals.replay, List.foldr_append]

/-- The answer of a command whose work is over the globals. -/
def answered {α : Type} (f : α → EnvReply) : Except Error α → Except Failure EnvReply
  | .ok a => .ok (f a)
  | .error e => .error (.error e)

theorem reply_looks {c : EnvCommand} {h : Handles} {handle : String}
    {f : Env → Globals → Except Error EnvReply} (hkind : c.kind = .looks handle f) {env : Env}
    (hfind : h.envs.find? handle = some env) :
    c.reply h = answered id (f env (h.store.globals env.rootId)) := by
  rw [EnvCommand.reply, c.exec_eq, hkind]
  simp only [CommandKind.exec, through, held, Holder.find?, hfind, answering]
  cases f env (h.store.globals env.rootId) <;> rfl

theorem reply_of_op {c : EnvCommand} {h : Handles} {root : Nat} {op : GlobalsOp}
    (hop : c.opOn? root h = some op) :
    c.reply h = answered (fun _ => .ok) ((op.exec (h.store.globals root)).map fun _ => ()) := by
  have hop' : c.op? h = some (root, op) := by
    unfold EnvCommand.opOn? at hop
    split at hop
    · next hop' =>
      split at hop
      · next hr => cases hop; rw [hop', hr]
      · cases hop
    · cases hop
  rw [EnvCommand.reply, EnvCommand.exec_of_op hop', operating]
  cases op.exec (h.store.globals root) <;> rfl

/-- The globals of a root are a map in which the last writer wins. After any commands, through any
handles, a lookup in a namespace answers what the history of the root says: the value of the latest
successful binding of that name there, unless the globals were cleared since; that the namespace
does not exist, exactly when it is neither the first one nor was created or switched to; or that
the name is not bound. The history also says which command succeeds and what error another one
gives, and a command that fails changes nothing. -/
theorem resolveQualified_run (h : Handles) (target first : String) (cs : List EnvCommand) :
    let root := h.store.roots.length
    let start := (EnvCommand.new target first).after h
    let past := start.history root cs
    let now := start.run cs
    (∀ handle env, now.envs.find? handle = some env → env.rootId = root → ∀ ns name,
      (EnvCommand.resolveQualified handle ns name).reply now =
        answered .value (History.find first past ns name)) ∧
    (∀ (c : EnvCommand) (op : GlobalsOp), c.opOn? root now = some op →
      c.reply now = answered (fun _ => .ok) (History.verdict first past op)) ∧
    (now.store.globals root).active = History.active first past ∧
    ∀ (c : EnvCommand) (e : Failure), c.reply now = .error e → c.after now = now := by
  intro root start past now
  have hroot : root < start.store.roots.length := by
    change h.store.roots.length < (h.store.roots ++ [Globals.ofNamespace first]).length
    simp
  have hfirst : start.store.globals root = Globals.ofNamespace first := by
    change (h.store.roots ++ [Globals.ofNamespace first]).getD h.store.roots.length default = _
    simp
  have hrecalls : Recalls first past (now.store.globals root) := by
    rw [globals_run cs hroot, hfirst]
    exact Recalls.replay first past
  refine ⟨fun handle env hfind henv ns name => ?_, fun c op hop => ?_, hrecalls.active,
    fun c e he => EnvCommand.after_of_error he⟩
  · rw [reply_looks rfl hfind, henv, hrecalls.resolveQualified]
    cases History.find first past ns name <;> rfl
  · rw [reply_of_op hop, hrecalls.exec]

/-- Binds `x` in two namespaces, by way of a frame, of the root and of a second handle of it, and
fails to bind it in a third. -/
def lateWriters : List EnvCommand :=
  [.child "f" "r" "f" [], .bindGlobal "f" ⟨none, "x"⟩ (.int 1), .clone "q" "r",
    .switchNamespace "q" " lib ", .bind "r" "x" (.int 2), .bindQualified "f" "nope" "x" (.int 3),
    .bind "q" " x" (.int 4)]

theorem resolveQualified_run_lateWriters :
    let now := ((EnvCommand.new "r" "user").after {}).run lateWriters
    (EnvCommand.resolveQualified "f" "lib" "x").reply now = .ok (.value (.int 4)) ∧
    (EnvCommand.resolveQualified "q" "user" "x").reply now = .ok (.value (.int 1)) ∧
    (EnvCommand.resolveQualified "r" "nope" "x").reply now =
      .error (.error (.namespaceNotFound "nope")) ∧
    (EnvCommand.bindGlobal "f" ⟨none, " "⟩ .nil).reply now = .error (.error (.invalidName " ")) := by
  intro now
  obtain ⟨hlookup, hverdict, -⟩ := resolveQualified_run {} "r" "user" lateWriters
  have hf : now.envs.find? "f" = some (.frame "f" [] (.root 0)) := rfl
  have hq : now.envs.find? "q" = some (.root 0) := rfl
  have hr : now.envs.find? "r" = some (.root 0) := rfl
  have hop : (EnvCommand.bindGlobal "f" ⟨none, " "⟩ .nil).opOn? 0 now =
      some (.bind none " " .nil) := rfl
  refine ⟨(hlookup "f" _ hf rfl "lib" "x").trans ?_, (hlookup "q" _ hq rfl "user" "x").trans ?_,
    (hlookup "r" _ hr rfl "nope" "x").trans ?_, (hverdict _ _ hop).trans ?_⟩
  · rfl
  · rfl
  · rfl
  · rfl

end Handles

end LispCore
