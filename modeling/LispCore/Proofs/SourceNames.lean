import LispCore.Proofs.Descent
import LispCore.Proofs.WellFormed

/-!
# The names that a program can have

A word in a text is not empty and has no blank in it, and the names of its symbols are parts of
words. `Symbol.Clean` says so of a symbol; every form that is read has such symbols only
(`read_clean`), and so has an interpreter that was just built (`Config.build_clean`). Evaluation
keeps this of every form, value and expression, whatever macros and functions a text defines. So
every name that a program binds can be bound, and no text raises an error about an invalid name
(`Config.texts_never_invalid`).
-/

namespace LispCore

/-! ## Clean symbols -/

/-- A symbol as it stands in a text: its base name is something, without any blank. -/
structure Symbol.Clean (s : Symbol) : Prop where
  nonempty : s.base ≠ ""
  unbroken : ∀ c ∈ s.base.toList, Text.isBlank c = false

theorem Text.trim_of_unbroken {name : String} (h : ∀ c ∈ name.toList, isBlank c = false) :
    trim name = name := by
  have hdrop {cs : List Char} (h : ∀ c ∈ cs, isBlank c = false) : cs.dropWhile isBlank = cs := by
    cases cs with
    | nil => rfl
    | cons c cs => rw [List.dropWhile_cons_of_neg (by simp [h c List.mem_cons_self])]
  rw [trim, trimChars, hdrop h, trimRight, hdrop fun c hc => h c (List.mem_reverse.1 hc),
    List.reverse_reverse, String.ofList_toList]

namespace Symbol.Clean

variable {s : Symbol}

theorem trimmed (h : s.Clean) : s.trimmed.Clean := by
  have hsame : s.trimmed = s := by
    rw [Symbol.trimmed, Text.trim_of_unbroken h.unbroken]
  rwa [hsame]

theorem of_all (hne : s.base ≠ "") (h : s.base.toList.all (fun c => !Text.isBlank c) = true) :
    s.Clean :=
  ⟨hne, fun c hc => by simpa using List.all_eq_true.1 h c hc⟩

theorem not_allBlank (h : s.Clean) : Text.allBlank s.base = false := by
  unfold Text.allBlank
  cases hchars : s.base.toList with
  | nil => exact absurd (String.toList_eq_nil_iff.1 hchars) h.nonempty
  | cons c cs =>
    have hc := h.unbroken c (by rw [hchars]; exact List.mem_cons_self)
    rw [List.all_cons, hc, Bool.false_and]

end Symbol.Clean

/-- Values, environments and expressions with clean symbols, and all errors but those about
invalid names. -/
def Realm.clean : Realm :=
  .wellFormed Symbol.Clean (fun _ hs => hs.trimmed) (fun e => ∀ name, e ≠ .invalidName name)
    fun _ he name hname => by
      obtain ⟨hblank, s, hs, rfl⟩ := he.invalidName name hname
      rw [hs.not_allBlank] at hblank
      cases hblank

/-! ## What is read -/

theorem Symbol.Written.clean {s : Symbol} (h : s.Written) : s.Clean := ⟨h.base.1, h.base.2⟩

theorem Value.wellFormed_of_isWritten {v : Value} (h : v.Throughout IsWritten) :
    v.WellFormed Symbol.Clean := by
  induction v using collection_induction with
  | list items ih => exact .list fun v hv => ih v hv ((throughout_list.1 h).2 v hv)
  | vector items ih => exact .vector fun v hv => ih v hv ((throughout_vector.1 h).2 v hv)
  | other v hlist hvector =>
    have hwritten := h v .self
    cases v with
    | list items => exact absurd rfl (hlist items)
    | vector items => exact absurd rfl (hvector items)
    | symbol s => exact .symbol (Symbol.Written.clean hwritten)
    | fn f => cases hwritten
    | native f => cases hwritten
    | foreign x => cases hwritten
    | _ => constructor

/-- Every symbol that is read is clean. -/
theorem read_clean {text : String} {forms : List Value} (h : read text = .ok forms) :
    ∀ v ∈ forms, v.WellFormed Symbol.Clean :=
  fun v hv => Value.wellFormed_of_isWritten (read_written h v hv)

/-! ## Interpreters as they are built -/

theorem Builtin.parse_name (b : Builtin) : Symbol.parse b.name = .ofBase b.name := by
  cases b <;> rfl

theorem Builtin.name_clean (b : Builtin) : (Symbol.ofBase b.name).Clean := by
  refine .of_all ?_ ?_
  · cases b <;> decide
  · cases b <;> rfl

/-- A builtin can always be bound. -/
theorem Interpreter.register_clean (i : Interpreter) (b : Builtin) {s : Store}
    (hs : s.Within .clean) :
    ∃ s', (i.register b.name b.name : Run Unit) s = .ok () s' ∧ s'.Within .clean := by
  let native : Value := .native ⟨s.nextId, b.name, some b.name⟩
  let counted : Store := { s with nextId := s.nextId + 1 }
  have hcounted : counted.Within .clean := ⟨hs.globals, hs.tasks⟩
  let g := counted.globals i.root
  let bound := g.put g.active (Text.trim b.name) native
  have hdefine : g.define (Symbol.parse b.name) native = .ok bound := by
    have hblank : Text.allBlank b.name = false := b.name_clean.not_allBlank
    rw [b.parse_name, Symbol.ofBase, Globals.define_eq, hblank]
    rfl
  have hbound : bound.Within .clean :=
    (hcounted.root i.root).put g.active (Text.trim b.name) (Value.WellFormed.native _ _ _)
  refine ⟨counted.setGlobals i.root bound, ?_, hcounted.setGlobals i.root hbound⟩
  change (match counted.answer (.define i.root (Symbol.parse b.name) native) with
    | (a, s) => (ofExcept a : Run Unit) s) = _
  simp only [Store.answer]
  rw [hdefine]
  rfl

/-- An interpreter without globals of its own can always be built. -/
theorem Config.build_clean (c : Config) (hglobals : c.globals = []) {s : Store}
    (hs : s.Within .clean) :
    ∃ i s', c.build s = .ok i s' ∧ i.analyzer = c.analyzer ∧ s'.Within .clean := by
  let i : Interpreter := ⟨s.roots.length, c.analyzer, c.maxDepth⟩
  have hforM (builtins : List Builtin) {s : Store} (hs : s.Within .clean) :
      ∃ s', (builtins.forM (fun b => i.register b.name b.name) : Run PUnit) s = .ok ⟨⟩ s' ∧
        s'.Within .clean := by
    induction builtins generalizing s with
    | nil => exact ⟨s, rfl, hs⟩
    | cons b builtins ih =>
      obtain ⟨s₁, hfirst, hs₁⟩ := i.register_clean b hs
      obtain ⟨s₂, hrest, hs₂⟩ := ih hs₁
      refine ⟨s₂, ?_, hs₂⟩
      change (i.register b.name b.name >>= fun _ => builtins.forM fun b => i.register b.name b.name :
        Run PUnit) s = _
      rw [Run.bind_of_ok hfirst]
      exact hrest
  have hopened : (s.addRoot (.ofNamespace c.activeNamespace)).2.Within .clean := by
    refine ⟨List.forall_mem_append.2 ⟨hs.globals, List.forall_mem_singleton.2 ?_⟩, hs.tasks⟩
    exact List.forall_mem_singleton.2 nofun
  obtain ⟨s', hbuilt, hs'⟩ := hforM c.builtins hopened
  refine ⟨i, s', ?_, rfl, hs'⟩
  unfold Config.build
  rw [hglobals]
  change (c.builtins.forM (fun b => i.register b.name b.name) >>= fun _ => _ : Run Interpreter)
    (s.addRoot (.ofNamespace c.activeNamespace)).2 = _
  rw [Run.bind_of_ok hbuilt]
  rfl

/-! ## Texts one after the other -/

/-- An activation that a move starts is one of the realm. -/
theorem Thread.Keeps.activations {W : Realm} {started new : List Activation} {α : Type}
    {Q : α → Prop} {a : Analyzer} {host : Host} {s s' : Store} {t t' : Thread α}
    (h : t.Keeps W started Q) (hmove : t.Move a host s new s' t') :
    ∀ act ∈ new, W.activation act := by
  obtain ⟨P, hscript, -⟩ := h
  cases hmove with
  | start => exact List.forall_mem_singleton.2 hscript.1
  | _ => exact List.forall_mem_nil _

theorem System.Keeps.activations {W : Realm} {α : Type} {Q : α → Prop} {a : Analyzer} {host : Host}
    {y z : System α} (h : y.Keeps W Q) (hstep : Step a host y z)
    (hstarted : ∀ act ∈ y.started, W.activation act) : ∀ act ∈ z.started, W.activation act := by
  cases hstep with
  | main hmove => exact List.forall_mem_append.2 ⟨h.main.activations hmove, hstarted⟩
  | task hmove =>
    have hmoving := h.tasks _ (List.mem_append_right _ List.mem_cons_self)
    exact List.forall_mem_append.2 ⟨hmoving.activations hmove, hstarted⟩
  | launch => exact hstarted

namespace Interpreter

/-- The thread that evaluates the forms of a text. -/
def thread (host : Host) (i : Interpreter) (depth : Nat) (forms : List Value) : Thread Value :=
  .ofScript i.maxDepth depth
    ((Entry.evalAll i.env forms).script ⟨i.analyzer, host, i.maxDepth⟩ depth)

/-- The states of an interpreter that runs texts one after the other, beside the tasks that they
start. A text may begin when the one before it is over, whatever came of it. -/
inductive Runs (host : Host) (i : Interpreter) (s : Store) : System Value → Prop where
  | idle : Runs host i s ⟨s, .ofScript i.maxDepth 0 (.done .nil), [], []⟩
  | step {y z : System Value} : Runs host i s y → System.Step i.analyzer host y z → Runs host i s z
  | text {y : System Value} {text : String} {forms : List Value} (depth : Nat) :
    Runs host i s y → y.main.outcome? ≠ none → read text = .ok forms →
    Runs host i s { y with main := i.thread host depth forms }

variable {host : Host} {i : Interpreter} {s : Store} {y z : System Value}

theorem Runs.reaches (h : Runs host i s y) (hreach : System.Reaches i.analyzer host y z) :
    Runs host i s z := by
  induction hreach with
  | refl => exact h
  | tail _ hstep ih => exact .step ih hstep

/-- One of the orders is that a text runs to its end by itself. -/
theorem Runs.evalAll (h : Runs host i s y) (hover : y.main.outcome? ≠ none) {text : String}
    {forms : List Value} (hread : read text = .ok forms) (depth : Nat) :
    let run : Run Value := i.evalAll host depth forms
    ∃ z, Runs host i s z ∧ z.store = run.final y.store ∧
      z.main.outcome? = some (run.answer y.store) := by
  intro run
  let S : Setting := ⟨i.analyzer, host, i.maxDepth⟩
  have hends : Ends S depth ((Entry.evalAll i.env forms).script S depth) y.store (run y.store) :=
    (Entry.evalAll i.env forms).ending_script y.store
  obtain ⟨new, hmoves⟩ := Thread.moves_of_ends hends .bottom
  refine ⟨_, (Runs.text depth h hover hread).reaches (.moves_main hmoves y.tasks y.started), ?_, ?_⟩
  · exact (Run.final_eq run y.store).symm
  · change Thread.outcome? ⟨_, _, Script.ofResult (run y.store), .bottom⟩ = _
    cases hrun : run y.store <;> simp only [Run.answer, hrun] <;> rfl

/-- Everything that is run, made or stored is clean. -/
theorem Runs.clean (hallows : Realm.clean.Allows i.analyzer) (hs : s.Within .clean)
    (h : Runs standardHost i s y) :
    y.Keeps .clean (Value.WellFormed Symbol.Clean) ∧
      ∀ act ∈ y.started, Realm.clean.activation act := by
  have hadmits : Realm.clean.Admits standardHost := admits_standardHost
  induction h with
  | idle =>
    refine ⟨⟨hs, ⟨Value.WellFormed Symbol.Clean, ?_, fun _ ha => ha⟩, List.forall_mem_nil _⟩,
      List.forall_mem_nil _⟩
    exact Value.WellFormed.nil
  | step _ hstep ih =>
    obtain ⟨hkeeps, hstarted⟩ := ih
    exact ⟨hkeeps.step hallows hadmits hstep, hkeeps.activations hstep hstarted⟩
  | @text y text forms depth _ hover hread ih =>
    obtain ⟨hkeeps, hstarted⟩ := ih
    have hentry : Realm.clean.entry (.evalAll i.env forms) := ⟨.root i.root, read_clean hread⟩
    have hscript := Entry.script_keeps (S := ⟨i.analyzer, standardHost, i.maxDepth⟩) hadmits
      y.started depth hentry
    exact ⟨⟨hkeeps.store, ⟨_, hscript, fun _ ha => ha⟩, hkeeps.tasks⟩, hstarted⟩

end Interpreter

/-- An interpreter with builtins and no other globals can always be built, over any store with
clean symbols, and then runs texts that can be read, one after the other, beside the tasks that they
start. In every state of it, every form, value and expression that is evaluated, that is a result
or that waits in the store has only symbols whose names are not empty and have no blank in them. So
neither a text nor a task ever ends in an error about an invalid name, and neither does the next
text when it runs by itself, which is again one of these states. -/
theorem Config.texts_never_invalid (c : Config) (hglobals : c.globals = [])
    (hallows : Realm.clean.Allows c.analyzer) {s : Store} (hs : s.Within .clean) :
    ∃ i start, c.build s = .ok i start ∧ ∀ now, i.Runs standardHost start now →
      now.store.Within .clean ∧
      (∀ act ∈ now.started, Realm.clean.activation act) ∧
      (∀ r, now.main.outcome? = some r →
        Fits (fun e => ∀ name, e ≠ .invalidName name) (Value.WellFormed Symbol.Clean) r) ∧
      (∀ task ∈ now.tasks, ∀ r, task.outcome? = some r →
        Fits (fun e => ∀ name, e ≠ .invalidName name) (Value.WellFormed Symbol.Clean) r) ∧
      ∀ text forms depth, read text = .ok forms → now.main.outcome? ≠ none →
        let run : Run Value := i.evalAll standardHost depth forms
        (∀ form ∈ forms, form.WellFormed Symbol.Clean) ∧
        (∀ name, run.answer now.store ≠ .error (.invalidName name)) ∧
        ∃ later, i.Runs standardHost start later ∧ later.store = run.final now.store ∧
          later.main.outcome? = some (run.answer now.store) := by
  obtain ⟨i, start, hbuild, hanalyzer, hstart⟩ := c.build_clean hglobals hs
  rw [← hanalyzer] at hallows
  refine ⟨i, start, hbuild, fun now hnow => ?_⟩
  obtain ⟨hkeeps, hstarted⟩ := hnow.clean hallows hstart
  refine ⟨hkeeps.store, hstarted, fun r hr => hkeeps.main.outcome hr,
    fun task htask r hr => (hkeeps.tasks task htask).outcome hr,
    fun text forms depth hread hover => ⟨read_clean hread, fun name hname => ?_, ?_⟩⟩
  · obtain ⟨later, hlater, -, houtcome⟩ := hnow.evalAll hover hread depth
    rw [hname] at houtcome
    exact (hlater.clean hallows hstart).1.main.outcome houtcome name rfl
  · exact hnow.evalAll hover hread depth

/-- Defines a macro that defines what it is given, and uses it. -/
def definingText : String := "(def m (macro m [x] (list 'def x 1))) (m y) y"

def definingForms : List Value :=
  let word (name : String) : Value := .symbol (.ofBase name)
  [.list [word "def", word "m", .list [word "macro", word "m", .vector [word "x"],
      .list [word "list", Reader.quoteForm (word "def"), word "x", .int 1]]],
    .list [word "m", word "y"], word "y"]

theorem Config.texts_never_invalid_definingText :
    ∃ i start, Config.build { builtins := Builtin.basic } {} = .ok i start ∧
      read definingText = .ok definingForms ∧
      let run : Run Value := i.evalAll standardHost 0 definingForms
      (∀ name, run.answer start ≠ .error (.invalidName name)) ∧ (run.final start).Within .clean := by
  have hread : read definingText = .ok definingForms := by rfl
  obtain ⟨i, start, hbuild, hruns⟩ :=
    Config.texts_never_invalid { builtins := Builtin.basic } rfl (Realm.allows_standard _)
      (s := {}) ⟨List.forall_mem_nil _, List.forall_mem_nil _⟩
  obtain ⟨-, -, -, -, hnext⟩ := hruns _ .idle
  obtain ⟨-, hanswer, later, hlater, hstore, -⟩ := hnext definingText definingForms 0 hread nofun
  refine ⟨i, start, hbuild, hread, hanswer, ?_⟩
  have hwithin := (hruns later hlater).1
  rwa [hstore] at hwithin

end LispCore
