import LispCore.Proofs.History

/-!
# Frames are private, globals are shared

Binding through the handle of a frame shows through that handle and through the handles, closures
and tasks that stem from it afterwards. `Handles.Apart` relates two states that differ in this way;
commands keep it (`Handles.Apart.run`), so replies that come from elsewhere are the same in both. An
operation on the globals of a root shows through the handles over that root
(`Handles.Rooted.reply_looks`) and through no others (`Handles.Rooted.reply_other`).
-/

namespace LispCore

/-! ## Holders -/

namespace Holder

variable {α β : Type} (named : Bindings α) (kept : List (Option α)) (holder : Holder)

theorem find?_insert (target : String) (a : α) :
    holder.find? (named.insert target a) kept =
      if holder = .handle target then some a else holder.find? named kept := by
  cases holder with
  | handle name => simp [find?, Bindings.find?_insert, eq_comm]
  | captured index => simp [find?]

theorem find?_append (a : α) :
    holder.find? named (kept ++ [some a]) =
      if holder = .captured kept.length then some a else holder.find? named kept := by
  cases holder with
  | handle name => simp [find?]
  | captured index =>
    simp only [find?, captured.injEq]
    by_cases hlast : index = kept.length
    · simp [hlast]
    · rw [if_neg hlast, List.getElem?_append]
      split
      · rfl
      · rw [List.getElem?_eq_none (by simp; omega), List.getElem?_eq_none (by omega)]

theorem find?_set (index : Nat) :
    holder.find? named (kept.set index none) =
      if holder = .captured index then none else holder.find? named kept := by
  cases holder with
  | handle name => simp [find?]
  | captured other =>
    simp only [find?, List.getElem?_set, captured.injEq]
    by_cases hother : index = other
    · subst hother
      by_cases hlt : index < kept.length <;> simp [hlt]
    · simp [hother, Ne.symm hother]

theorem find?_map (f : α → β) :
    holder.find? (named.map fun p => (p.1, f p.2)) (kept.map (Option.map f)) =
      (holder.find? named kept).map f := by
  cases holder with
  | handle name => exact Bindings.find?_map f named name
  | captured index =>
    simp only [find?, List.getElem?_map]
    cases kept[index]? with
    | none => rfl
    | some r => rfl

end Holder

/-! ## What a reply depends on -/

/-- What a command goes through to an environment. -/
def EnvCommand.holder? (c : EnvCommand) : Option Holder :=
  match c.kind with
  | .opens _ _ => none
  | .derives _ source _ => some source
  | .looks handle _ => some (.handle handle)
  | .binds handle _ _ => some (.handle handle)
  | .operates handle _ => some (.handle handle)
  | .captures handle _ => some (.handle handle)
  | .releases _ => none

/-- A reply tells of the environment that the command goes to and of the globals of its root only. -/
theorem EnvCommand.reply_congr {c : EnvCommand} {h₁ h₂ : Handles}
    (hheld : ∀ holder, c.holder? = some holder → h₁.held holder = h₂.held holder)
    (hglobals : ∀ holder env, c.holder? = some holder → h₂.held holder = some env →
      h₁.store.globals env.rootId = h₂.store.globals env.rootId) :
    c.reply h₁ = c.reply h₂ := by
  have hthrough {holder : Holder} {k₁ k₂ : Env → Handles.Result}
      (hholder : c.holder? = some holder)
      (hk : ∀ env, h₁.store.globals env.rootId = h₂.store.globals env.rootId →
        Handles.replyOf (k₁ env) = Handles.replyOf (k₂ env)) :
      Handles.replyOf (h₁.through holder k₁) = Handles.replyOf (h₂.through holder k₂) := by
    unfold Handles.through
    rw [hheld holder hholder]
    cases hfound : h₂.held holder with
    | none => rfl
    | some env => exact hk env (hglobals holder env hholder hfound)
  have hoperating (root : Nat) (op : GlobalsOp)
      (hroot : h₁.store.globals root = h₂.store.globals root) :
      Handles.replyOf (h₁.operating root op) = Handles.replyOf (h₂.operating root op) := by
    unfold Handles.operating
    rw [hroot]
    cases op.exec (h₂.store.globals root) <;> rfl
  rw [reply, reply, exec_eq, exec_eq]
  unfold holder? at hthrough
  cases hkind : c.kind with
  | opens target ns => rfl
  | derives target source f =>
    refine hthrough (by rw [hkind]) fun env _ => ?_
    cases f env <;> rfl
  | looks handle f =>
    refine hthrough (by rw [hkind]) fun env hroot => ?_
    rw [hroot]
    cases f env (h₂.store.globals env.rootId) <;> rfl
  | binds handle key v =>
    refine hthrough (by rw [hkind]) fun env hroot => ?_
    cases env with
    | root id =>
      rw [Handles.binding, Handles.binding]
      exact hoperating id _ hroot
    | frame n vars p =>
      simp only [Handles.binding]
      by_cases hblank : Text.allBlank key = true
      · rw [if_pos hblank, if_pos hblank]; rfl
      · rw [if_neg hblank, if_neg hblank]; rfl
  | operates handle op =>
    exact hthrough (by rw [hkind]) fun env hroot => hoperating env.rootId op hroot
  | captures handle f => exact hthrough (by rw [hkind]) fun env _ => rfl
  | releases index => rfl

/-! ## Two runs that differ in one frame -/

/-- Chains of frames with the same names over the same root. What they bind may differ. -/
inductive Env.Alike : Env → Env → Prop where
  | root (id : Nat) : Alike (.root id) (.root id)
  | frame (name : String) (vars₁ vars₂ : Bindings Value) {parent₁ parent₂ : Env} :
    Alike parent₁ parent₂ → Alike (.frame name vars₁ parent₁) (.frame name vars₂ parent₂)

namespace Env.Alike

variable {env₁ env₂ : Env}

theorem refl (env : Env) : Alike env env := by
  induction env using Env.chain_induction with
  | root id => exact .root id
  | frame name vars parent ih => exact .frame name vars vars ih

theorem rootId (h : Alike env₁ env₂) : env₁.rootId = env₂.rootId := by
  induction h with
  | root id => rfl
  | frame name vars₁ vars₂ _ ih => exact ih

end Env.Alike

/-- Whether what a holder has stems from the holders in `d` once a command has run. -/
def EnvCommand.derived (c : EnvCommand) (h : Handles) (d : Holder → Prop) (holder : Holder) : Prop :=
  match c.kind with
  | .opens target _ => holder ≠ .handle target ∧ d holder
  | .derives target source f =>
    if holder = .handle target ∧ ((h.held source).bind f).isSome then d source else d holder
  | .captures handle _ =>
    if holder = .captured h.captured.length ∧ (h.envs.find? handle).isSome then d (.handle handle)
    else d holder
  | _ => d holder

namespace Handles

/-- The holders whose environments stem from those in `d` after commands in order. -/
def derived : Handles → (Holder → Prop) → List EnvCommand → Holder → Prop
  | _, d, [] => d
  | h, d, c :: cs => derived (c.after h) (c.derived h d) cs

/-- Two states that can be told apart through the holders in `d` only. -/
structure Apart (d : Holder → Prop) (h₁ h₂ : Handles) : Prop where
  store : h₁.store = h₂.store
  count : h₁.captured.length = h₂.captured.length
  same (holder : Holder) (hd : ¬ d holder) : h₁.held holder = h₂.held holder
  alike (holder : Holder) : Option.Rel Env.Alike (h₁.held holder) (h₂.held holder)

section

variable (h : Handles)

theorem held_put (target : String) (env : Env) (holder : Holder) :
    (h.put target env).held holder =
      if holder = .handle target then some env else h.held holder :=
  holder.find?_insert h.envs h.captured target env

theorem held_keep (env : Env) (holder : Holder) :
    (h.keep env).held holder =
      if holder = .captured h.captured.length then some env else h.held holder :=
  holder.find?_append h.envs h.captured env

theorem held_drop (index : Nat) (holder : Holder) :
    (h.drop index).held holder = if holder = .captured index then none else h.held holder :=
  holder.find?_set h.envs h.captured index

end

end Handles

theorem EnvCommand.rootId_of_captures {c : EnvCommand} {handle : String} {f : Env → Env}
    (hkind : c.kind = .captures handle f) (env : Env) : (f env).rootId = env.rootId := by
  cases c with
  | capture | launch => cases hkind; rfl
  | _ => cases hkind

theorem EnvCommand.alike_of_captures {c : EnvCommand} {handle : String} {f : Env → Env}
    (hkind : c.kind = .captures handle f) {env₁ env₂ : Env} (h : env₁.Alike env₂) :
    (f env₁).Alike (f env₂) := by
  cases c with
  | capture => cases hkind; exact h
  | launch => cases hkind; exact .frame _ _ _ h
  | _ => cases hkind

theorem EnvCommand.rootId_of_derives {c : EnvCommand} {target : String} {source : Holder}
    {f : Env → Option Env} (hkind : c.kind = .derives target source f) {env env' : Env}
    (hf : f env = some env') : env'.rootId = env.rootId := by
  cases c with
  | child | clone | root | reopen => cases hkind; cases hf; rfl
  | parent =>
    cases hkind
    cases env with
    | root id => cases hf
    | frame name vars parent => cases hf; rfl
  | _ => cases hkind

theorem EnvCommand.alike_of_derives {c : EnvCommand} {target : String} {source : Holder}
    {f : Env → Option Env} (hkind : c.kind = .derives target source f) {env₁ env₂ : Env}
    (h : env₁.Alike env₂) : Option.Rel Env.Alike (f env₁) (f env₂) := by
  cases c with
  | child => cases hkind; exact .some (.frame _ _ _ h)
  | clone | reopen => cases hkind; exact .some h
  | root =>
    cases hkind
    dsimp only
    rw [h.rootId]
    exact .some (.root _)
  | parent =>
    cases hkind
    cases h with
    | root id => exact .none
    | frame name vars₁ vars₂ h => exact .some h
  | _ => cases hkind

namespace Handles.Apart

variable {d : Holder → Prop} {h₁ h₂ : Handles}

theorem refl (d : Holder → Prop) (h : Handles) : Apart d h h := by
  refine ⟨rfl, rfl, fun _ _ => rfl, fun holder => ?_⟩
  cases h.held holder with
  | none => exact .none
  | some env => exact .some (.refl env)

theorem cases (h : Apart d h₁ h₂) (holder : Holder) :
    h₁.held holder = none ∧ h₂.held holder = none ∨
    ∃ env₁ env₂, h₁.held holder = some env₁ ∧ h₂.held holder = some env₂ ∧
      env₁.Alike env₂ := by
  have halike := h.alike holder
  generalize h₁.held holder = r₁ at halike
  generalize h₂.held holder = r₂ at halike
  cases halike with
  | none => exact .inl ⟨rfl, rfl⟩
  | some halike => exact .inr ⟨_, _, rfl, rfl, halike⟩

/-- One holder gets environments that are alike, and the same unless it may be told apart. -/
theorem set (h : Apart d h₁ h₂) {d' : Holder → Prop} {h₁' h₂' : Handles} {target : Holder}
    {env₁ env₂ : Env} (hstore : h₁'.store = h₂'.store)
    (hcount : h₁'.captured.length = h₂'.captured.length)
    (hheld₁ : ∀ holder, h₁'.held holder = if holder = target then some env₁ else h₁.held holder)
    (hheld₂ : ∀ holder, h₂'.held holder = if holder = target then some env₂ else h₂.held holder)
    (hd : ∀ holder, holder ≠ target → d holder → d' holder)
    (hsame : ¬ d' target → env₁ = env₂) (halike : env₁.Alike env₂) : Apart d' h₁' h₂' where
  store := hstore
  count := hcount
  same holder hn := by
    rw [hheld₁, hheld₂]
    by_cases ht : holder = target
    · subst ht
      rw [if_pos rfl, if_pos rfl, hsame hn]
    · rw [if_neg ht, if_neg ht]
      exact h.same holder fun hdh => hn (hd holder ht hdh)
  alike holder := by
    rw [hheld₁, hheld₂]
    by_cases ht : holder = target
    · rw [if_pos ht, if_pos ht]
      exact .some halike
    · rw [if_neg ht, if_neg ht]
      exact h.alike holder

theorem put (h : Apart d h₁ h₂) {d' : Holder → Prop} {target : String} {env₁ env₂ : Env}
    (hd : ∀ holder, holder ≠ .handle target → d holder → d' holder)
    (hsame : ¬ d' (.handle target) → env₁ = env₂) (halike : env₁.Alike env₂) :
    Apart d' (h₁.put target env₁) (h₂.put target env₂) :=
  h.set h.store h.count (h₁.held_put target env₁) (h₂.held_put target env₂) hd hsame halike

theorem keep (h : Apart d h₁ h₂) {d' : Holder → Prop} {env₁ env₂ : Env}
    (hd : ∀ holder, holder ≠ .captured h₁.captured.length → d holder → d' holder)
    (hsame : ¬ d' (.captured h₁.captured.length) → env₁ = env₂) (halike : env₁.Alike env₂) :
    Apart d' (h₁.keep env₁) (h₂.keep env₂) := by
  have hheld₂ := h₂.held_keep env₂
  rw [← h.count] at hheld₂
  refine h.set h.store ?_ (h₁.held_keep env₁) hheld₂ hd hsame halike
  simp only [Handles.keep, List.length_append, h.count, List.length_singleton]

theorem drop (h : Apart d h₁ h₂) (index : Nat) : Apart d (h₁.drop index) (h₂.drop index) where
  store := h.store
  count := by simp only [Handles.drop, List.length_set, h.count]
  same holder hn := by rw [held_drop, held_drop, h.same holder hn]
  alike holder := by
    rw [held_drop, held_drop]
    split
    · exact .none
    · exact h.alike holder

theorem operate (h : Apart d h₁ h₂) (root : Nat) (op : GlobalsOp) :
    Apart d (h₁.operate root op) (h₂.operate root op) where
  store := by simp only [Handles.operate, h.store]
  count := h.count
  same holder := h.same holder
  alike holder := h.alike holder

/-- A handle leads to environments that are alike, and to the same unless it may be told apart. -/
theorem handle (h : Apart d h₁ h₂) (name : String) :
    h₁.envs.find? name = none ∧ h₂.envs.find? name = none ∨
    ∃ env₁ env₂, h₁.envs.find? name = some env₁ ∧ h₂.envs.find? name = some env₂ ∧
      env₁.Alike env₂ ∧ (¬ d (.handle name) → env₁ = env₂) := by
  rcases h.cases (.handle name) with hnone | ⟨env₁, env₂, hheld₁, hheld₂, halike⟩
  · exact .inl hnone
  · refine .inr ⟨env₁, env₂, hheld₁, hheld₂, halike, fun hd => ?_⟩
    have hsame := h.same _ hd
    rw [hheld₁, hheld₂] at hsame
    exact Option.some.inj hsame

theorem opens (h : Apart d h₁ h₂) (target ns : String) :
    Apart (fun holder => holder ≠ .handle target ∧ d holder) (h₁.opened target ns)
      (h₂.opened target ns) := by
  have hput : Apart (fun holder => holder ≠ .handle target ∧ d holder)
      (h₁.put target (.root h₁.store.roots.length))
      (h₂.put target (.root h₁.store.roots.length)) :=
    h.put (fun _ hne hd => ⟨hne, hd⟩) (fun _ => rfl) (.refl _)
  unfold Handles.opened
  rw [← h.store]
  exact ⟨rfl, h.count, hput.same, hput.alike⟩

theorem derives (h : Apart d h₁ h₂) (target : String) (source : Holder) {f : Env → Option Env}
    (hf : ∀ {env₁ env₂ : Env}, env₁.Alike env₂ → Option.Rel Env.Alike (f env₁) (f env₂)) :
    Apart
      (fun holder => if holder = .handle target ∧ ((h₁.held source).bind f).isSome then d source
        else d holder)
      ((CommandKind.derives target source f).after h₁)
      ((CommandKind.derives target source f).after h₂) := by
  have hsame := h.same source
  simp only [CommandKind.after]
  rcases h.cases source with ⟨hheld₁, hheld₂⟩ | ⟨env₁, env₂, hheld₁, hheld₂, halike⟩
  · simpa [hheld₁, hheld₂] using h
  rw [hheld₁, hheld₂] at hsame
  rw [hheld₁, hheld₂, Option.bind_some, Option.bind_some]
  have hderived := hf halike
  cases hderived₁ : f env₁ with
  | none =>
    rw [hderived₁] at hderived
    cases hderived₂ : f env₂ with
    | none => simpa using h
    | some env₂' => rw [hderived₂] at hderived; cases hderived
  | some env₁' =>
    rw [hderived₁] at hderived
    cases hderived₂ : f env₂ with
    | none => rw [hderived₂] at hderived; cases hderived
    | some env₂' =>
      rw [hderived₂] at hderived
      cases hderived with | some halike' =>
      refine h.put (fun holder hne hd => ?_) (fun hn => ?_) halike'
      · rw [if_neg fun hcond => hne hcond.1]
        exact hd
      · rw [if_pos ⟨rfl, rfl⟩] at hn
        cases hsame hn
        exact Option.some.inj (hderived₁.symm.trans hderived₂)

theorem binds (h : Apart d h₁ h₂) (handle key : String) (v : Value) :
    Apart d ((CommandKind.binds handle key v).after h₁)
      ((CommandKind.binds handle key v).after h₂) := by
  simp only [CommandKind.after]
  rcases h.handle handle with ⟨hfind₁, hfind₂⟩ | ⟨env₁, env₂, hfind₁, hfind₂, halike, hsame⟩
  · rw [hfind₁, hfind₂]
    exact h
  · rw [hfind₁, hfind₂]
    cases halike with
    | root id => exact h.operate id _
    | frame name vars₁ vars₂ hparent =>
      by_cases hblank : Text.allBlank key = true
      · simp only [hblank, if_true]
        exact h
      · simp only [hblank]
        refine h.put (fun _ _ hd => hd) (fun hn => ?_) (.frame name _ _ hparent)
        cases hsame hn
        rfl

theorem operates (h : Apart d h₁ h₂) (handle : String) (op : GlobalsOp) :
    Apart d ((CommandKind.operates handle op).after h₁)
      ((CommandKind.operates handle op).after h₂) := by
  simp only [CommandKind.after]
  rcases h.handle handle with ⟨hfind₁, hfind₂⟩ | ⟨env₁, env₂, hfind₁, hfind₂, halike, -⟩
  · rw [hfind₁, hfind₂]
    exact h
  · rw [hfind₁, hfind₂]
    dsimp only
    rw [halike.rootId]
    exact h.operate env₂.rootId op

theorem captures (h : Apart d h₁ h₂) (handle : String) {f : Env → Env}
    (hf : ∀ {env₁ env₂ : Env}, env₁.Alike env₂ → (f env₁).Alike (f env₂)) :
    Apart
      (fun holder => if holder = .captured h₁.captured.length ∧ (h₁.envs.find? handle).isSome
        then d (.handle handle) else d holder)
      ((CommandKind.captures handle f).after h₁) ((CommandKind.captures handle f).after h₂) := by
  simp only [CommandKind.after]
  rcases h.handle handle with ⟨hfind₁, hfind₂⟩ | ⟨env₁, env₂, hfind₁, hfind₂, halike, hsame⟩
  · simpa [hfind₁, hfind₂] using h
  · simp only [hfind₁, hfind₂]
    refine h.keep (fun holder hne hd => ?_) (fun hn => ?_) (hf halike)
    · rw [if_neg fun hcond => hne hcond.1]
      exact hd
    · rw [if_pos ⟨rfl, rfl⟩] at hn
      rw [hsame hn]

/-- One command keeps the difference of two states within the holders that stem from it. -/
theorem after (h : Apart d h₁ h₂) (c : EnvCommand) :
    Apart (c.derived h₁ d) (c.after h₁) (c.after h₂) := by
  rw [c.after_eq, c.after_eq]
  unfold EnvCommand.derived
  cases hkind : c.kind with
  | opens target ns => exact h.opens target ns
  | derives target source f => exact h.derives target source (EnvCommand.alike_of_derives hkind)
  | looks handle f => exact h
  | binds handle key v => exact h.binds handle key v
  | operates handle op => exact h.operates handle op
  | captures handle f => exact h.captures handle (EnvCommand.alike_of_captures hkind)
  | releases index => exact h.drop index

/-- What stays equal in two states stays equal over any commands, apart from the holders that stem
from those that were not. -/
theorem run (h : Apart d h₁ h₂) (cs : List EnvCommand) :
    Apart (h₁.derived d cs) (h₁.run cs) (h₂.run cs) := by
  induction cs generalizing d h₁ h₂ with
  | nil => exact h
  | cons c cs ih => exact ih (h.after c)

/-- Replies tell two states apart only through the holders where they are. -/
theorem reply (h : Apart d h₁ h₂) {c : EnvCommand}
    (hc : ∀ holder, c.holder? = some holder → ¬ d holder) : c.reply h₁ = c.reply h₂ :=
  EnvCommand.reply_congr (fun holder hholder => h.same holder (hc holder hholder))
    fun _ _ _ _ => by rw [h.store]

/-- Binding through the handle of a frame sets only that handle apart. -/
theorem of_bind {h : Handles} {handle name : String} {vars : Bindings Value} {parent : Env}
    (hfind : h.envs.find? handle = some (.frame name vars parent)) (key : String) (v : Value) :
    Apart (· = .handle handle) ((EnvCommand.bind handle key v).after h) h := by
  rw [EnvCommand.after_eq]
  simp only [EnvCommand.kind, CommandKind.after, hfind]
  by_cases hblank : Text.allBlank key = true
  · rw [if_pos hblank]
    exact .refl _ h
  · rw [if_neg hblank]
    refine ⟨rfl, rfl, fun other hne => ?_, fun other => ?_⟩
    · rw [held_put, if_neg hne]
    · rw [held_put]
      by_cases hother : other = .handle handle
      · rw [if_pos hother, hother, held, Holder.find?, hfind]
        exact .some (.frame name _ _ (.refl parent))
      · rw [if_neg hother]
        exact (refl (· = .handle handle) h).alike other

end Handles.Apart

/-! ## One root behind many handles -/

namespace Handles

/-- Every environment that is held leads to a root of the store. -/
def Rooted (h : Handles) : Prop :=
  ∀ holder env, h.held holder = some env → env.rootId < h.store.roots.length

namespace Rooted

variable {h : Handles}

theorem put (hr : Rooted h) (target : String) {env : Env}
    (henv : env.rootId < h.store.roots.length) : Rooted (h.put target env) := by
  intro holder env' hheld
  rw [held_put] at hheld
  split at hheld
  · cases hheld
    exact henv
  · exact hr holder env' hheld

theorem keep (hr : Rooted h) {env : Env} (henv : env.rootId < h.store.roots.length) :
    Rooted (h.keep env) := by
  intro holder env' hheld
  rw [held_keep] at hheld
  split at hheld
  · cases hheld
    exact henv
  · exact hr holder env' hheld

theorem drop (hr : Rooted h) (index : Nat) : Rooted (h.drop index) := by
  intro holder env hheld
  rw [held_drop] at hheld
  split at hheld
  · cases hheld
  · exact hr holder env hheld

theorem operate (hr : Rooted h) (root : Nat) (op : GlobalsOp) : Rooted (h.operate root op) := by
  intro holder env hheld
  simpa [Handles.operate, Store.setGlobals] using hr holder env hheld

theorem opened (hr : Rooted h) (target ns : String) : Rooted (h.opened target ns) := by
  intro holder env hheld
  have hput := h.held_put target (.root h.store.roots.length) holder
  change (h.put target (.root h.store.roots.length)).held holder = some env at hheld
  rw [hput] at hheld
  simp only [Handles.opened, Store.addRoot, List.length_append, List.length_singleton]
  split at hheld
  · cases hheld
    exact Nat.lt_succ_self _
  · exact Nat.lt_succ_of_lt (hr holder env hheld)

theorem after (hr : Rooted h) (c : EnvCommand) : Rooted (c.after h) := by
  rw [c.after_eq]
  cases hkind : c.kind with
  | opens target ns => exact hr.opened target ns
  | derives target source f =>
    simp only [CommandKind.after]
    split
    · next env' hderived =>
      obtain ⟨env, hheld, hf⟩ := Option.bind_eq_some_iff.1 hderived
      refine hr.put target ?_
      rw [EnvCommand.rootId_of_derives hkind hf]
      exact hr source env hheld
    · exact hr
  | looks handle f => exact hr
  | binds handle key v =>
    simp only [CommandKind.after]
    split
    · next name vars parent hfind =>
      split
      · exact hr
      · have hroot := hr (.handle handle) _ hfind
        exact hr.put handle (by rwa [Env.rootId] at hroot ⊢)
    · exact hr.operate _ _
    · exact hr
  | operates handle op =>
    simp only [CommandKind.after]
    split
    · exact hr.operate _ _
    · exact hr
  | captures handle f =>
    simp only [CommandKind.after]
    split
    · next env hfind =>
      refine hr.keep ?_
      rw [EnvCommand.rootId_of_captures hkind]
      exact hr (.handle handle) env hfind
    · exact hr
  | releases index => exact hr.drop index

theorem run (hr : Rooted h) (cs : List EnvCommand) : Rooted (h.run cs) := by
  induction cs generalizing h with
  | nil => exact hr
  | cons c cs ih => exact ih (hr.after c)

theorem empty : Rooted {} := by
  intro holder env hheld
  cases holder with
  | handle name => cases hheld
  | captured index => cases index <;> cases hheld

end Rooted

section

variable {h : Handles} {c : EnvCommand} {root : Nat} {op : GlobalsOp} {handle : String} {env : Env}

theorem envs_of_op (hop : c.op? h = some (root, op)) : (c.after h).envs = h.envs := by
  rw [EnvCommand.after, EnvCommand.exec_of_op hop, EnvCommand.stateOf_operating]
  rfl

theorem held_of_op (hop : c.op? h = some (root, op)) (holder : Holder) :
    (c.after h).held holder = h.held holder := by
  rw [EnvCommand.after, EnvCommand.exec_of_op hop, EnvCommand.stateOf_operating]
  rfl

theorem globals_of_op (hop : c.op? h = some (root, op)) {k : Nat} (hk : k < h.store.roots.length) :
    (c.after h).store.globals k =
      if root = k then (h.store.globals root).after op else h.store.globals k := by
  rw [c.globals_after hk, EnvCommand.opOn?, hop]
  by_cases hroot : root = k
  · rw [if_pos hroot, hroot]
    simp [Globals.replay]
  · simp [Globals.replay, hroot]

/-- An operation on globals shows through every handle over the same root. -/
theorem Rooted.reply_looks (hr : Rooted h) (hop : c.op? h = some (root, op))
    (hfind : h.envs.find? handle = some env) (hroot : env.rootId = root) {c' : EnvCommand}
    {f : Env → Globals → Except Error EnvReply} (hkind : c'.kind = .looks handle f) :
    c'.reply (c.after h) = answered id (f env ((h.store.globals root).after op)) := by
  have hfind' : (c.after h).envs.find? handle = some env := by rw [envs_of_op hop, hfind]
  rw [Handles.reply_looks hkind hfind', globals_of_op hop (hr (.handle handle) env hfind),
    if_pos hroot.symm]

/-- An operation on globals does not show through what is held over another root. -/
theorem Rooted.reply_other (hr : Rooted h) (hop : c.op? h = some (root, op)) {holder : Holder}
    (hheld : h.held holder = some env) (hroot : env.rootId ≠ root) {c' : EnvCommand}
    (hholder : c'.holder? = some holder) : c'.reply (c.after h) = c'.reply h := by
  refine EnvCommand.reply_congr (fun other _ => held_of_op hop other)
    fun other env' hother hheld' => ?_
  rw [hholder] at hother
  cases hother
  rw [hheld] at hheld'
  cases hheld'
  rw [globals_of_op hop (hr holder env hheld), if_neg (Ne.symm hroot)]

end

end Handles

end LispCore
