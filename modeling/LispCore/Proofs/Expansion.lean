import LispCore.Proofs.Limits
import LispCore.Proofs.WellFormed

/-!
# Expansion is bounded iteration

`Level.Expands lv env n` says that `n` single expansions in a row lead from a form and a store to
another form and store. Expansion of a form goes along such a chain and ends in one of three ways
(`Level.expandLoop_cases`): at a form that is no macro call, with the error of a step, or with the
bound exceeded. Evaluation does not expand, so it raises no error about the bound by itself
(`eval_settles`).

Analysis expands a form one level deeper than expansion by itself does. As long as the levels
suffice this makes no difference to macros that do not look at the depth
(`Analyzer.expandBelow_of_succ_pinned`), so analysis of a form is analysis of its expansion.
-/

namespace LispCore

/-! ## Single expansions in a row -/

/-- `n` expansions of one form after the other, each from the store that the one before left. -/
inductive Level.Expands (lv : Level Run) (env : Env) :
    Nat → Value → Store → Value → Store → Prop where
  | refl (form : Value) (s : Store) : Expands lv env 0 form s form s
  | step {n : Nat} {form next last : Value} {s s' t : Store} :
    lv.expandOnce env form s = .ok (some next) s' → Expands lv env n next s' last t →
      Expands lv env (n + 1) form s last t

namespace Level

variable {lv : Level Run} {env : Env} {max left n : Nat} {source form last : Value} {s t : Store}

/-- Looking for a macro leaves the store alone and does not fail. -/
theorem macroOf_eq_ok (env : Env) (form : Value) (s : Store) :
    ∃ found, (macroOf env form : Run _) s = .ok found s := by
  unfold macroOf
  split
  · next head args =>
    rw [Run.bind_of_ok (Env.lookupM_eq env head s)]
    cases env.lookup (s.globals env.rootId) head with
    | error e => exact ⟨none, rfl⟩
    | ok v =>
      cases v with
      | fn f => exact ⟨_, rfl⟩
      | _ => exact ⟨none, rfl⟩
  · exact ⟨none, rfl⟩

/-- A form is left as it is exactly if it calls no macro, at whatever level. -/
theorem expandOnce_eq_none_iff :
    lv.expandOnce env form s = .ok none t ↔
      t = s ∧ (macroOf env form : Run _) s = .ok none s := by
  obtain ⟨found, hfound⟩ := macroOf_eq_ok env form s
  unfold expandOnce
  rw [Run.bind_of_ok hfound, hfound]
  cases found with
  | none =>
    refine ⟨fun h => ?_, fun h => by rw [h.1]; rfl⟩
    cases h
    exact ⟨rfl, rfl⟩
  | some call =>
    refine ⟨fun h => ?_, fun h => ?_⟩
    · dsimp only at h
      cases hcall : lv.applyClosure call.1 call.2 s with
      | ok v u => rw [Run.bind_of_ok hcall] at h; cases h
      | error e u => rw [Run.bind_of_error hcall] at h; cases h
    · obtain ⟨-, h⟩ := h
      cases h

/-- One round of expansion. -/
theorem expandLoop_eq : lv.expandLoop max env source left form s =
    match lv.expandOnce env form s with
    | .error e t => .error e t
    | .ok none t => .ok form t
    | .ok (some next) t => match left with
      | 0 => .error (.expansionLimit source.display max) t
      | left + 1 => lv.expandLoop max env source left next t := by
  conv => lhs; unfold expandLoop
  cases honce : lv.expandOnce env form s with
  | error e t => rw [Run.bind_of_error honce]
  | ok next t =>
    rw [Run.bind_of_ok honce]
    cases next with
    | none => rfl
    | some next => cases left <;> rfl

theorem expandLoop_of_none (h : lv.expandOnce env form s = .ok none t) :
    lv.expandLoop max env source left form s = .ok form t := by
  rw [expandLoop_eq, h]

theorem expandLoop_of_error {e : Error} (h : lv.expandOnce env form s = .error e t) :
    lv.expandLoop max env source left form s = .error e t := by
  rw [expandLoop_eq, h]

namespace Expands

/-- Expansion goes along single expansions. -/
theorem expandLoop (h : lv.Expands env n form s last t) (left : Nat) :
    lv.expandLoop max env source (left + n) form s = lv.expandLoop max env source left last t := by
  induction h with
  | refl => rfl
  | step honce _ ih =>
    rw [← ih, ← Nat.add_assoc]
    conv => lhs; rw [expandLoop_eq, honce]

/-- The last of several expansions. -/
theorem pred (h : lv.Expands env (n + 1) form s last t) :
    ∃ f u, lv.Expands env n form s f u ∧ lv.expandOnce env f u = .ok (some last) t := by
  induction n generalizing form s with
  | zero =>
    cases h with | step honce hrest =>
    cases hrest
    exact ⟨form, s, .refl form s, honce⟩
  | succ n ih =>
    cases h with | step honce hrest =>
    obtain ⟨f, u, hf, hlast⟩ := ih hrest
    exact ⟨f, u, .step honce hf, hlast⟩

/-- After one expansion more than the bound the loop gives up. -/
theorem expandLoop_exceeded (h : lv.Expands env (left + 1) form s last t) :
    lv.expandLoop max env source left form s = .error (.expansionLimit source.display max) t := by
  obtain ⟨f, u, hf, hlast⟩ := h.pred
  have hloop : lv.expandLoop max env source (0 + left) form s =
      lv.expandLoop max env source 0 f u := hf.expandLoop 0
  rw [Nat.zero_add] at hloop
  rw [hloop, expandLoop_eq, hlast]

end Expands

/-- How expansion ends: at a form that calls no macro, with the bound exceeded, or with the error of
a step. -/
theorem expandLoop_cases (lv : Level Run) (max : Nat) (env : Env) (source : Value) (left : Nat)
    (form : Value) (s : Store) :
    let run := lv.expandLoop max env source left form s
    (∃ n ≤ left, ∃ last t, lv.Expands env n form s last t ∧
      lv.expandOnce env last t = .ok none t ∧ run = .ok last t) ∨
    (∃ last t, lv.Expands env (left + 1) form s last t ∧
      run = .error (.expansionLimit source.display max) t) ∨
    ∃ n ≤ left, ∃ last u e t, lv.Expands env n form s last u ∧
      lv.expandOnce env last u = .error e t ∧ run = .error e t := by
  induction left generalizing form s with
  | zero =>
    cases honce : lv.expandOnce env form s with
    | error e t =>
      exact .inr (.inr ⟨0, Nat.le_refl 0, form, s, e, t, .refl form s, honce,
        expandLoop_of_error honce⟩)
    | ok next t =>
      cases next with
      | none =>
        obtain ⟨rfl, -⟩ := expandOnce_eq_none_iff.1 honce
        exact .inl ⟨0, Nat.le_refl 0, form, t, .refl form t, honce, expandLoop_of_none honce⟩
      | some next =>
        have hchain : lv.Expands env (0 + 1) form s next t := .step honce (.refl next t)
        exact .inr (.inl ⟨next, t, hchain, hchain.expandLoop_exceeded⟩)
  | succ left ih =>
    cases honce : lv.expandOnce env form s with
    | error e t =>
      exact .inr (.inr ⟨0, Nat.zero_le _, form, s, e, t, .refl form s, honce,
        expandLoop_of_error honce⟩)
    | ok next t =>
      cases next with
      | none =>
        obtain ⟨rfl, -⟩ := expandOnce_eq_none_iff.1 honce
        exact .inl ⟨0, Nat.zero_le _, form, t, .refl form t, honce, expandLoop_of_none honce⟩
      | some next =>
        have hround : lv.expandLoop max env source (left + 1) form s =
            lv.expandLoop max env source left next t := by rw [expandLoop_eq, honce]
        dsimp only
        rw [hround]
        rcases ih next t with ⟨n, hn, last, u, hchain, hstop, hrun⟩ | ⟨last, u, hchain, hrun⟩ |
          ⟨n, hn, last, u, e, v, hchain, hfail, hrun⟩
        · exact .inl ⟨n + 1, Nat.succ_le_succ hn, last, u, .step honce hchain, hstop, hrun⟩
        · exact .inr (.inl ⟨last, u, .step honce hchain, hrun⟩)
        · exact .inr (.inr ⟨n + 1, Nat.succ_le_succ hn, last, u, e, v, .step honce hchain, hfail,
            hrun⟩)

theorem expandLoop_eq_ok_iff :
    lv.expandLoop max env source left form s = .ok last t ↔
      ∃ n ≤ left, lv.Expands env n form s last t ∧ lv.expandOnce env last t = .ok none t := by
  refine ⟨fun h => ?_, fun ⟨n, hn, hchain, hstop⟩ => ?_⟩
  · rcases lv.expandLoop_cases max env source left form s with
      ⟨n, hn, g, u, hchain, hstop, hrun⟩ | ⟨_, _, _, hrun⟩ | ⟨_, _, _, _, _, _, _, _, hrun⟩
    · rw [h] at hrun
      cases hrun
      exact ⟨n, hn, hchain, hstop⟩
    · rw [h] at hrun; cases hrun
    · rw [h] at hrun; cases hrun
  · obtain ⟨rest, rfl⟩ : ∃ rest, left = rest + n := ⟨left - n, by omega⟩
    rw [hchain.expandLoop, expandLoop_of_none hstop]

theorem expandLoop_eq_error_iff {e : Error} :
    lv.expandLoop max env source left form s = .error e t ↔
      (e = .expansionLimit source.display max ∧ ∃ last, lv.Expands env (left + 1) form s last t) ∨
      ∃ n ≤ left, ∃ last u, lv.Expands env n form s last u ∧
        lv.expandOnce env last u = .error e t := by
  refine ⟨fun h => ?_, fun h => ?_⟩
  · rcases lv.expandLoop_cases max env source left form s with
      ⟨_, _, _, _, _, _, hrun⟩ | ⟨last, u, hchain, hrun⟩ | ⟨n, hn, last, u, e', v, hchain, hfail, hrun⟩
    · rw [h] at hrun; cases hrun
    · rw [h] at hrun
      cases hrun
      exact .inl ⟨rfl, last, hchain⟩
    · rw [h] at hrun
      cases hrun
      exact .inr ⟨n, hn, last, u, hchain, hfail⟩
  · rcases h with ⟨rfl, last, hchain⟩ | ⟨n, hn, last, u, hchain, hfail⟩
    · exact hchain.expandLoop_exceeded
    · obtain ⟨rest, rfl⟩ : ∃ rest, left = rest + n := ⟨left - n, by omega⟩
      rw [hchain.expandLoop, expandLoop_of_error hfail]

end Level

/-! ## Evaluation does not expand -/

/-- Not an error about too many expansions. -/
def Error.Settled (e : Error) : Prop := ∀ text max, e ≠ .expansionLimit text max

/-- Whatever its calls return, the host function itself raises no error about too many
expansions. -/
def Reply.Settled {args : List Value} : Reply args → Prop
  | .done r => ∀ e, r = .error e → e.Settled
  | .call _ _ _ next => ∀ v, (next v).Settled

/-- No function of the host raises an error about too many expansions. -/
def Host.Settled (host : Host) : Prop := ∀ name c args, (host name c args).Settled

/-- Whatever the store, the run answers with what `Q` admits, or its error is not about too many
expansions. -/
def Run.Settles {α : Type} (x : Run α) (Q : α → Prop) : Prop :=
  ∀ s, Fits Error.Settled Q (x.answer s)

namespace Run.Settles

variable {α β : Type} {P : α → Prop} {Q : β → Prop}

theorem pure {a : α} (ha : P a) : Run.Settles (pure a) P := fun _ => ha

theorem fail {e : Error} (he : e.Settled) : Run.Settles (fail e) P := fun _ => he

theorem bind {x : Run α} {f : α → Run β} (hx : x.Settles P) (hf : ∀ a, P a → (f a).Settles Q) :
    (x >>= f).Settles Q := by
  intro s
  have hanswer := hx s
  cases h : x s with
  | ok a t =>
    rw [Run.answer_of_ok h] at hanswer
    rw [Run.answer_congr (Run.bind_of_ok h)]
    exact hf a hanswer t
  | error e t =>
    rw [Run.answer_of_error h] at hanswer
    rw [Run.answer_of_error (Run.bind_of_error h)]
    exact hanswer

theorem ofExcept {r : Except Error α} (h : Fits Error.Settled P r) :
    Run.Settles (ofExcept r) P := by
  cases r with
  | ok a => exact pure h
  | error e => exact fail h

theorem request {r : Request} {P : r.Answer → Prop} (h : ∀ s : Store, P (s.answer r).1) :
    Run.Settles (request r) P := fun s => h s

theorem mapM {f : β → Run α} {xs : List β} (h : ∀ x ∈ xs, (f x).Settles fun _ => True) :
    Run.Settles (xs.mapM f) fun _ => True := by
  suffices go : ∀ acc, Run.Settles (List.mapM.loop f xs acc) fun _ => True from go []
  induction xs with
  | nil => exact fun _ => pure trivial
  | cons x xs ih =>
    exact fun _ => bind (h x List.mem_cons_self) fun _ _ =>
      ih (fun y hy => h y (List.mem_cons_of_mem x hy)) _

theorem foldlM {f : α → β → Run α} {xs : List β}
    (h : ∀ a, ∀ x ∈ xs, (f a x).Settles fun _ => True) (init : α) :
    Run.Settles (xs.foldlM f init) fun _ => True := by
  induction xs generalizing init with
  | nil => exact pure trivial
  | cons x xs ih =>
    exact bind (h init x List.mem_cons_self) fun a _ =>
      ih (fun b y hy => h b y (List.mem_cons_of_mem x hy)) a

end Run.Settles

/-- The errors of lookups and definitions are about names. -/
theorem Globals.lookup_settled (g : Globals) (symbol : Symbol) :
    Fits Error.Settled (fun _ => True) (g.lookup symbol) := by
  have hname (name : String) : (Error.notFound name).Settled := nofun
  have hspace (ns : String) : (Error.namespaceNotFound ns).Settled := nofun
  unfold lookup resolveQualified
  split
  · split
    · exact hspace _
    · split
      · exact hname _
      · trivial
  · split
    · trivial
    · exact hname _

theorem Globals.define_settled (g : Globals) (symbol : Symbol) (v : Value) :
    Fits Error.Settled (fun _ => True) (g.define symbol v) := by
  have hdefine := g.define_eq symbol.space symbol.base v
  change g.define symbol v = _ at hdefine
  rw [hdefine]
  split
  · exact nofun
  · split
    · trivial
    · exact nofun

theorem Env.lookupM_settles (env : Env) (symbol : Symbol) :
    Run.Settles (env.lookupM symbol) (Fits Error.Settled fun _ => True) := by
  intro s
  rw [Run.answer_of_ok (Env.lookupM_eq env symbol s)]
  change Fits _ _ (env.lookup _ symbol)
  unfold Env.lookup
  split
  · trivial
  · exact Globals.lookup_settled _ symbol

theorem Closure.enter_settled (f : Closure) (args : List Value) :
    Fits Error.Settled (fun _ => True) (f.enter args) := by
  unfold enter
  split
  · exact nofun
  · split
    · exact nofun
    · exact nofun
    · refine Fits.bind (Closure.bindAll_fits (Q := fun _ => True) (fun _ _ => trivial) ?_)
        fun _ _ => trivial
      exact fun _ _ _ => nofun

/-- The errors of a host function are its own, or those of its calls. -/
theorem Reply.follow_settles {args : List Value}
    {call : (f : Value) → (xs : List Value) → f.callSize xs ≤ sizeOf args → Run Value}
    (hcall : ∀ f xs bounded, (call f xs bounded).Settles fun _ => True) {reply : Reply args}
    (h : reply.Settled) : (reply.follow call).Settles fun _ => True := by
  induction reply with
  | done r =>
    refine .ofExcept ?_
    cases r with
    | ok v => trivial
    | error e => exact h e rfl
  | call f xs bounded next ih => exact .bind (hcall f xs bounded) fun v _ => ih v (h v)

theorem Builtin.intArgs_settled (b : Builtin) (args : List Value) :
    Fits Error.Settled (fun _ => True) (b.intArgs args) := by
  induction args with
  | nil => trivial
  | cons v args ih =>
    cases v with
    | int n => exact ih.bind fun _ _ => trivial
    | _ => exact nofun

theorem Value.compare_settled (x y : Value) :
    Fits Error.Settled (fun _ => True) (x.compare y) := by
  unfold Value.compare
  split
  case h_2 =>
    split
    · trivial
    · exact nofun
  case h_6 =>
    split
    · trivial
    · exact nofun
  all_goals trivial

theorem Builtin.run_settled (b : Builtin) (c : Context) (args : List Value) :
    Fits Error.Settled (fun _ => True) (b.run c args) := by
  have hbad : Fits Error.Settled (fun _ => True) b.badArguments := nofun
  unfold Builtin.run
  split
  -- `add` and `sub`, then `less`
  case h_1 => exact (intArgs_settled _ _).bind fun _ _ => trivial
  case h_2 =>
    refine (intArgs_settled _ _).bind fun ns _ => ?_
    split
    · exact nofun
    · trivial
    · trivial
  case h_3 => exact (Value.compare_settled _ _).bind fun _ _ => trivial
  -- `nth`, `assoc` and `compare`
  case h_23 =>
    split
    · trivial
    · exact hbad
  case h_24 =>
    split
    · trivial
    · exact hbad
  case h_25 => exact (Value.compare_settled _ _).bind fun _ _ => trivial
  all_goals first | trivial | exact nofun

theorem standardHost_settled : standardHost.Settled := by
  intro name c args
  have hanswer (v : Value) : (.done (.ok v) : Reply args).Settled := nofun
  unfold standardHost
  split
  · next b _ =>
    unfold Builtin.reply
    split
    · exact hanswer
    · exact hanswer
    · intro e he
      have hrun := b.run_settled c args
      rw [he] at hrun
      exact hrun
  · rintro _ ⟨⟩
    exact nofun

namespace Level

variable {lv : Level Run}

theorem applyClosure_settles (heval : ∀ env e, (lv.eval env e).Settles fun _ => True)
    (f : Closure) (args : List Value) : (lv.applyClosure f args).Settles fun _ => True := by
  have henter := f.enter_settled args
  unfold applyClosure
  cases hentered : f.enter args with
  | ok entered => exact heval _ _
  | error e =>
    rw [hentered] at henter
    exact .fail henter

theorem apply_settles (hhost : lv.host.Settled)
    (heval : ∀ env e, (lv.eval env e).Settles fun _ => True) (f : Value) (args : List Value) :
    (lv.apply f args).Settles fun _ => True := by
  have huncallable (text : String) : (Error.internal text).Settled := nofun
  have hrefused (other : Value) : (Error.notInvokable other.display other.typeName).Settled := nofun
  induction f, args using apply_induction with
  | fn f args =>
    rw [apply_fn]
    exact applyClosure_settles heval f args
  | native f name args hname ih =>
    rw [lv.apply_native hname]
    exact Reply.follow_settles ih (hhost name lv.context args)
  | uncallable f args hname =>
    rw [lv.apply_uncallable hname]
    exact .fail (huncallable _)
  | other f args hf =>
    rw [lv.apply_of_not_invokable hf]
    exact .fail (hrefused f)

theorem evalOption_settles (heval : ∀ env e, (lv.eval env e).Settles fun _ => True) (env : Env)
    (e : Option Expr) : (lv.evalOption env e).Settles fun _ => True := by
  cases e with
  | none => exact .pure trivial
  | some e => exact heval env e

theorem refresh_settled (items : List Value) (index : Nat) (v : Value) :
    Fits Error.Settled (fun _ => True) (refresh items index v) := by
  unfold refresh
  split
  · trivial
  · split
    · trivial
    · exact nofun

/-- One node raises no error about too many expansions if nothing one level deeper does. -/
theorem evalNode_settles (hhost : lv.host.Settled)
    (heval : ∀ env e, (lv.eval env e).Settles fun _ => True) (env : Env) (e : Expr) :
    (lv.evalNode env e).Settles fun _ => True := by
  have hrefused (name type : String) : (Error.notInvokable name type).Settled := nofun
  cases e with
  | const v => exact .pure trivial
  | quote v => exact .pure trivial
  | define symbol value =>
    refine .bind (evalOption_settles heval env value) fun v _ => ?_
    have hdefine : Run.Settles (request (.define env.rootId symbol.trimmed v))
        (Fits Error.Settled fun _ => True) := by
      refine .request fun s => ?_
      have hfits := (s.globals env.rootId).define_settled symbol.trimmed v
      simp only [Store.answer]
      cases hg : (s.globals env.rootId).define symbol.trimmed v with
      | ok g => trivial
      | error e =>
        rw [hg] at hfits
        exact hfits
    refine hdefine.bind fun done hdone => ?_
    cases done with
    | ok _ => exact .pure trivial
    | error e => exact .fail hdone
  | cond test yes no =>
    exact .bind (evalOption_settles heval env test) fun _ _ => evalOption_settles heval env _
  | block body => exact .foldlM (fun _ e _ => heval env e) _
  | resolve symbol =>
    exact (Env.lookupM_settles env symbol).bind fun _ hfound => .ofExcept hfound
  | invoke name target args =>
    refine .bind (heval env target) fun f _ => ?_
    split
    · exact .bind (.mapM fun e _ => heval env e) fun args _ => apply_settles hhost heval f args
    · exact .fail (hrefused _ _)
  | vector items exprs =>
    refine .bind (.foldlM (fun items p _ => ?_) items) fun items _ => .pure trivial
    exact .bind (heval env p.1) fun v _ => .ofExcept (refresh_settled items p.2 v)
  | fn name doc isMacro arities =>
    exact .bind (.request (P := fun _ => True) fun _ => trivial) fun _ _ => .pure trivial
  | go body policy =>
    exact .bind (.request (P := fun _ => True) fun _ => trivial) fun _ _ => .pure trivial

end Level

/-- Evaluation raises no error about too many expansions unless the host does. -/
theorem eval_settles {host : Host} (hhost : host.Settled) (limit left : Nat) (env : Env) (e : Expr) :
    Run.Settles (eval host limit left env e) fun _ => True := by
  induction left generalizing env e with
  | zero => exact .fail nofun
  | succ left ih =>
    rw [eval_succ]
    exact Level.evalNode_settles hhost ih env e

theorem Level.expandOnce_settles {lv : Level Run}
    (heval : ∀ env e, (lv.eval env e).Settles fun _ => True) (env : Env) (form : Value) :
    (lv.expandOnce env form).Settles fun _ => True := by
  intro s
  obtain ⟨found, hfound⟩ := macroOf_eq_ok env form s
  unfold expandOnce
  rw [Run.answer_congr (Run.bind_of_ok hfound)]
  cases found with
  | none => trivial
  | some call =>
    exact Run.Settles.bind (applyClosure_settles heval call.1 call.2) (fun _ _ => .pure trivial) s

/-! ## Expansion one level deeper -/

namespace Host

/-- The function does the same at every depth under the same limit. -/
def DepthBlind (host : Host) (name : String) : Prop :=
  ∀ depth depth' limit args, host name ⟨depth, limit⟩ args = host name ⟨depth', limit⟩ args

/-- The host under one limit, whatever limit it is told. -/
def pinned (host : Host) (limit : Nat) : Host := fun name c args => host name ⟨c.depth, limit⟩ args

theorem DepthBlind.pinned {host : Host} {name : String} (h : host.DepthBlind name) (limit : Nat) :
    (host.pinned limit).Blind name :=
  fun c c' args => h c.depth c'.depth limit args

theorem only_blind {host : Host} {allowed : String → Bool}
    (h : ∀ name, allowed name = true → host.Blind name) (alarm : Error) (name : String) :
    (host.only allowed alarm).Blind name := by
  intro c c' args
  by_cases hallowed : allowed name = true
  · simp only [only, hallowed, if_true]
    exact h name hallowed c c' args
  · simp [only, hallowed]

/-- Of two alarms the last one set goes off. -/
theorem only_only (host : Host) (allowed : String → Bool) (alarm alarm' : Error) :
    (host.only allowed alarm).only allowed alarm' = host.only allowed alarm' := by
  funext name c args
  by_cases hallowed : allowed name = true <;> simp [only, hallowed]

end Host

/-- Computations that are the same. -/
def Agreement.same : Agreement Run Run where
  rel x y := x = y
  pure _ := rfl
  fail _ := rfl
  bind hx hf := by rw [hx, funext hf]

theorem Agreement.same_answers : Agreement.same.Answers := fun _ _ => rfl

/-- Under its own limit the host may be pinned to it. -/
theorem eval_pinned (host : Host) (limit left : Nat) (env : Env) (e : Expr) :
    (eval (host.pinned limit) limit left env e : Run Value) = eval host limit left env e := by
  induction left generalizing env e with
  | zero => rfl
  | succ left ih =>
    rw [eval_succ, eval_succ]
    let fixed : Level Run :=
      ⟨host.pinned limit, ⟨limit - left, limit⟩, eval (host.pinned limit) limit left⟩
    let free : Level Run := ⟨host, ⟨limit - left, limit⟩, eval host limit left⟩
    have heval (env : Env) (e : Expr) : Agreement.same.rel (fixed.eval env e) (free.eval env e) :=
      ih env e
    have hagree : Level.Agree .same fixed free :=
      ⟨heval, Level.apply_agree heval fun _ _ => .inl rfl, fun _ _ _ => rfl⟩
    exact Level.evalNode_agree Agreement.same_answers hagree env e

/-- Expansion takes no more of a level than evaluation one level deeper. -/
theorem Level.expand_congr {lv lv' : Level Run} (h : ∀ env e, lv.eval env e = lv'.eval env e)
    (max : Nat) (env : Env) (form : Value) : lv.expand max env form = lv'.expand max env form :=
  expandLoop_agree (R := .same) (expandOnce_agree Agreement.same_answers h env) (Nat.le_refl max)
    (.inl ⟨rfl, rfl⟩) form

namespace Analyzer

variable {a : Analyzer} {host : Host} {allowed : String → Bool} {alarm : Error}
  {limit left : Nat} {env : Env} {form g : Value} {s t : Store}

/-- Expansion with `left` levels left under the limit. -/
def expandBelow (a : Analyzer) (host : Host) (limit left : Nat) (env : Env) (form : Value) :
    Run Value :=
  Level.expand ⟨host, ⟨limit - left, limit⟩, eval host limit left⟩ a.maxExpansions env form

theorem expand_eq_expandBelow (a : Analyzer) (host : Host) (c : Context) (env : Env) (form : Value) :
    a.expand host c env form = a.expandBelow host c.limit c.left env form := by
  have heval (env : Env) (e : Expr) : (Level.ofContext host c : Level Run).eval env e =
      (⟨host, ⟨c.limit - c.left, c.limit⟩, eval host c.limit c.left⟩ : Level Run).eval env e := rfl
  exact Level.expand_congr heval a.maxExpansions env form

theorem expandBelow_pinned (a : Analyzer) (host : Host) (limit left : Nat) (env : Env)
    (form : Value) : a.expandBelow (host.pinned limit) limit left env form =
      a.expandBelow host limit left env form :=
  Level.expand_congr (eval_pinned host limit left) a.maxExpansions env form

theorem Widened.refl (lost : Error → Prop) (a : Analyzer) : a.Widened lost a :=
  ⟨rfl, rfl, Nat.le_refl _, .inl rfl⟩

/-- An expansion in which no alarm goes off is the expansion without alarms. -/
theorem expandBelow_only (hblind : ∀ name, allowed name = true → host.Blind name)
    (hquiet : (a.expandBelow (host.only allowed alarm) limit left env form).answer s
      ≠ .error alarm) :
    a.expandBelow host limit left env form s =
      a.expandBelow (host.only allowed alarm) limit left env form s := by
  have hlimited : Limited (· = alarm) False host allowed alarm limit limit :=
    ⟨hblind, rfl, .inl rfl⟩
  have hexpand := hlimited.expand ⟨Nat.le_refl left, .inl ⟨rfl, rfl⟩⟩ (.refl _ a)
    ⟨limit - left, limit⟩ ⟨limit - left, limit⟩ env form
  refine (hexpand s).2 ⟨fun e he => ?_, False.elim⟩
  rintro rfl
  exact hquiet he

/-- With one level less, expansion under a blind host is the same or exceeds the limit. -/
theorem expandBelow_succ (hblind : ∀ name, host.Blind name)
    (hdepth : (a.expandBelow host limit left env form).answer s ≠ .error (.depthExceeded limit)) :
    a.expandBelow host limit (left + 1) env form s = a.expandBelow host limit left env form s := by
  have hlimited : Limited (· = .depthExceeded limit) False host (fun _ => true)
      (.depthExceeded limit) limit limit := ⟨fun name _ => hblind name, rfl, .inl rfl⟩
  have hexpand := hlimited.expand ⟨Nat.le_succ left, .inr rfl⟩ (.refl _ a)
    ⟨limit - left, limit⟩ ⟨limit - (left + 1), limit⟩ env form
  refine (hexpand s).2 ⟨fun e he => ?_, False.elim⟩
  rintro rfl
  exact hdepth he

/-- An expansion that ends at a form ends there with one level less too, or exceeds the limit. -/
theorem expandBelow_of_succ (hblind : ∀ name, allowed name = true → host.Blind name)
    (hquiet : (a.expandBelow (host.only allowed alarm) limit (left + 1) env form).answer s
      ≠ .error alarm)
    (hrun : a.expandBelow host limit (left + 1) env form s = .ok g t)
    (hdepth : (a.expandBelow host limit left env form).answer s ≠ .error (.depthExceeded limit)) :
    a.expandBelow host limit left env form s = .ok g t := by
  -- the alarm may be mistaken for the limit, so another one is set
  let safe := host.only allowed (.internal "alarm")
  have hsafe (name : String) : safe.Blind name := Host.only_blind hblind _ name
  have halarm : safe.only allowed alarm = host.only allowed alarm := host.only_only allowed _ alarm
  have hsafeRun : a.expandBelow safe limit (left + 1) env form s = .ok g t := by
    rw [← halarm] at hquiet
    rw [expandBelow_only (fun name _ => hsafe name) hquiet, halarm]
    rw [halarm] at hquiet
    rw [← expandBelow_only hblind hquiet, hrun]
  have hlower : a.expandBelow host limit left env form s =
      a.expandBelow safe limit left env form s := by
    refine expandBelow_only hblind fun hloud => ?_
    have hsame : a.expandBelow safe limit (left + 1) env form s =
        a.expandBelow safe limit left env form s := by
      refine expandBelow_succ hsafe ?_
      rw [hloud]
      intro h
      cases h
    rw [← Run.answer_congr hsame, Run.answer_of_ok hsafeRun] at hloud
    cases hloud
  rw [Run.answer_congr hlower] at hdepth
  rw [hlower, ← expandBelow_succ hsafe hdepth, hsafeRun]

/-- The same for host functions that may look at the limit, which does not change. -/
theorem expandBelow_of_succ_pinned (hblind : ∀ name, allowed name = true → host.DepthBlind name)
    (hcalls : CallsOnly allowed host
      (fun host => a.expandBelow host limit (left + 1) env form) s)
    (hrun : a.expandBelow host limit (left + 1) env form s = .ok g t)
    (hdepth : (a.expandBelow host limit left env form).answer s ≠ .error (.depthExceeded limit)) :
    a.expandBelow host limit left env form s = .ok g t := by
  obtain ⟨alarm, hquiet⟩ := hcalls
  dsimp only at hquiet
  rw [← expandBelow_pinned] at hrun hdepth hquiet ⊢
  exact expandBelow_of_succ (fun name hname => (hblind name hname).pinned limit) hquiet hrun hdepth

/-! ## Analysis of an expanded form -/

theorem expandBelow_nil : a.expandBelow host limit left env .nil s = .ok .nil s :=
  Level.expandLoop_of_none (Level.expandOnce_eq_none_iff.2 ⟨rfl, rfl⟩)

/-- A form and its expansion are analyzed alike, from the stores before and after it. Only nil is
not expanded, and nil is what it expands to. -/
theorem analyzeForm_expanded {expand : Env → Value → Run Value} {deeper : Env → Value → Run Expr}
    (hform : expand env form s = .ok g t) (hg : expand env g t = .ok g t)
    (hnil : form.isNil = true → g = form ∧ t = s) :
    a.analyzeForm expand deeper env form s = a.analyzeForm expand deeper env g t := by
  cases hempty : form.isNil with
  | true =>
    obtain ⟨rfl, rfl⟩ := hnil hempty
    rfl
  | false =>
    unfold analyzeForm
    rw [hempty, if_neg (by decide), Run.bind_of_ok hform]
    cases hg' : g.isNil with
    | true =>
      cases g with
      | nil => rfl
      | _ => cases hg'
    | false => rw [if_neg (by decide), Run.bind_of_ok hg]

theorem analyze_expanded (hstop : (Level.macroOf env g : Run _) t = .ok none t)
    (hrun : a.expandBelow host limit left env form s = .ok g t) :
    (a.analyze host limit (left + 1) env form : Run Expr) s =
      (a.analyze host limit (left + 1) env g : Run Expr) t := by
  rw [analyze_succ, analyze_succ]
  refine analyzeForm_expanded hrun ?_ fun hnil => ?_
  · exact Level.expandLoop_of_none (Level.expandOnce_eq_none_iff.2 ⟨rfl, hstop⟩)
  · cases form with
    | nil =>
      rw [expandBelow_nil] at hrun
      cases hrun
      exact ⟨rfl, rfl⟩
    | _ => cases hnil

/-- Analysis fails as the expansion does. -/
theorem answer_analyze_of_error {e : Error}
    (h : (a.expandBelow host limit left env form).answer s = .error e) :
    (a.analyze host limit (left + 1) env form : Run Expr).answer s = .error e := by
  rw [analyze_succ]
  cases hempty : form.isNil with
  | true =>
    cases form with
    | nil => rw [Run.answer_of_ok expandBelow_nil] at h; cases h
    | _ => cases hempty
  | false =>
    unfold analyzeForm
    rw [hempty, if_neg (by decide)]
    exact Run.answer_bind_of_error _ h

/-- Analysis factors through expansion: a form is analyzed as what it expands to, from the store
that expansion left. -/
theorem analyze_of_expand {c : Context} (hblind : ∀ name, allowed name = true → host.DepthBlind name)
    (hcalls : CallsOnly allowed host (fun host => a.expand host c env form) s)
    (hrun : (a.expand host c env form : Run Value) s = .ok g t)
    (hstop : (Level.macroOf env g : Run _) t = .ok none t)
    (hdepth : (a.analyze host c.limit c.left env form : Run Expr).answer s
      ≠ .error (.depthExceeded c.limit)) :
    (a.analyze host c.limit c.left env form : Run Expr) s =
      (a.analyze host c.limit c.left env g : Run Expr) t := by
  cases hleft : c.left with
  | zero =>
    rw [hleft] at hdepth
    exact absurd rfl hdepth
  | succ left =>
    rw [hleft] at hdepth
    simp only [expand_eq_expandBelow, hleft] at hrun hcalls
    refine analyze_expanded hstop (expandBelow_of_succ_pinned hblind hcalls hrun fun hlimit => ?_)
    exact hdepth (answer_analyze_of_error hlimit)

/-- Under a host that raises no such error of its own, the error about the bound tells that one
expansion more than the bound was possible. -/
theorem expand_eq_exceeded_iff (hhost : host.Settled) {c : Context} :
    (a.expand host c env form : Run Value) s =
        .error (.expansionLimit form.display a.maxExpansions) t ↔
      ∃ f, (Level.ofContext host c : Level Run).Expands env (a.maxExpansions + 1) form s f t := by
  refine Level.expandLoop_eq_error_iff.trans ⟨?_, fun hchain => .inl ⟨rfl, hchain⟩⟩
  rintro (⟨-, hchain⟩ | ⟨n, -, f, u, -, hfail⟩)
  · exact hchain
  · let lv : Level Run := .ofContext host c
    have hsettles : Fits Error.Settled (fun _ => True) ((lv.expandOnce env f).answer u) :=
      Level.expandOnce_settles (eval_settles hhost c.limit c.left) env f u
    rw [Run.answer_of_error hfail] at hsettles
    exact absurd rfl (hsettles _ _)

/-- Expansion is bounded iteration of single expansions, from every store. It ends at a form exactly
if at most as many expansions as the bound lead there and the form calls no macro; it ends in an
error exactly if one expansion more than the bound is possible, which it says with the form it
started from, or if a step within the bound fails, and then with the error of that step. If the host
raises no such error of its own, the error about the bound tells that the bound was exceeded.

A form that expansion ends at is its own expansion and leaves the store alone. Unless the levels
that are left do not suffice, analysis of the form it started from is analysis of that form, if the
macros call only host functions that do not look at the depth. -/
theorem expand_eq_iterate (a : Analyzer) (host : Host) (c : Context) (env : Env) (form : Value)
    (s : Store) :
    let lv : Level Run := .ofContext host c
    let run : Run Value := a.expand host c env form
    let exceeded : Error := .expansionLimit form.display a.maxExpansions
    (∀ g t, run s = .ok g t ↔ ∃ n ≤ a.maxExpansions,
      lv.Expands env n form s g t ∧ lv.expandOnce env g t = .ok none t) ∧
    (∀ e t, run s = .error e t ↔
      (e = exceeded ∧ ∃ f, lv.Expands env (a.maxExpansions + 1) form s f t) ∨
      ∃ n ≤ a.maxExpansions, ∃ f u, lv.Expands env n form s f u ∧
        lv.expandOnce env f u = .error e t) ∧
    (host.Settled → ∀ t, run s = .error exceeded t ↔
      ∃ f, lv.Expands env (a.maxExpansions + 1) form s f t) ∧
    ∀ g t, run s = .ok g t →
      (a.expand host c env g : Run Value) t = .ok g t ∧
      ∀ allowed : String → Bool, (∀ name, allowed name = true → host.DepthBlind name) →
        CallsOnly allowed host (fun host => a.expand host c env form) s →
        (a.analyze host c.limit c.left env form : Run Expr).answer s
          ≠ .error (.depthExceeded c.limit) →
        (a.analyze host c.limit c.left env form : Run Expr) s =
          (a.analyze host c.limit c.left env g : Run Expr) t := by
  intro lv run exceeded
  refine ⟨fun g t => Level.expandLoop_eq_ok_iff, fun e t => Level.expandLoop_eq_error_iff,
    fun hhost t => expand_eq_exceeded_iff hhost, fun g t hrun => ?_⟩
  obtain ⟨n, -, -, hstop⟩ := Level.expandLoop_eq_ok_iff.1 hrun
  obtain ⟨-, hmacro⟩ := Level.expandOnce_eq_none_iff.1 hstop
  exact ⟨Level.expandLoop_of_none hstop, fun allowed hblind hcalls hdepth =>
    analyze_of_expand hblind hcalls hrun hmacro hdepth⟩

/-- `(three)` is expanded once, which a bound of one allows and a bound of zero does not. -/
theorem expand_eq_iterate_three :
    let call : Value := .list [.symbol ⟨none, "three"⟩]
    let sum : Value := .list [.symbol ⟨none, "+"⟩, .int 1, .int 2]
    let s : Store := { roots := [threeGlobals] }
    let once : Analyzer := { standard with maxExpansions := 1 }
    let never : Analyzer := { standard with maxExpansions := 0 }
    (once.expand standardHost ⟨0, 3⟩ (.root 0) call : Run Value) s = .ok sum s ∧
    (never.expand standardHost ⟨0, 3⟩ (.root 0) call : Run Value) s =
      .error (.expansionLimit "(three)" 0) s ∧
    (once.analyze standardHost 3 3 (.root 0) call : Run Expr) s =
      (once.analyze standardHost 3 3 (.root 0) sum : Run Expr) s := by
  intro call sum s once never
  have hstep : (Level.ofContext standardHost ⟨0, 3⟩ : Level Run).expandOnce (.root 0) call s =
      .ok (some sum) s := by cbv
  have hstop : (Level.ofContext standardHost ⟨0, 3⟩ : Level Run).expandOnce (.root 0) sum s =
      .ok none s := by cbv
  have halarm : (once.expand (standardHost.only Builtin.isBlind (.eval "alarm")) ⟨0, 3⟩ (.root 0)
      call : Run Value) s = .ok sum s := by cbv
  have hanalyze : ∃ e, (once.analyze standardHost 3 3 (.root 0) call : Run Expr) s = .ok e s :=
    ⟨_, by cbv⟩
  obtain ⟨hok, -, -, hfactors⟩ := expand_eq_iterate once standardHost ⟨0, 3⟩ (.root 0) call s
  obtain ⟨-, -, hexceeded, -⟩ := expand_eq_iterate never standardHost ⟨0, 3⟩ (.root 0) call s
  have hexpand := (hok sum s).2 ⟨1, Nat.le_refl 1, .step hstep (.refl sum s), hstop⟩
  refine ⟨hexpand, (hexceeded standardHost_settled s).2 ⟨sum, .step hstep (.refl sum s)⟩, ?_⟩
  refine (hfactors sum s hexpand).2 Builtin.isBlind (fun name hname _ _ _ _ => ?_)
    ⟨.eval "alarm", ?_⟩ ?_
  · exact standardHost_blind name hname _ _ _
  · rw [Run.answer_of_ok halarm]
    intro h
    cases h
  · obtain ⟨e, he⟩ := hanalyze
    rw [show (Context.left ⟨0, 3⟩) = 3 from rfl, Run.answer_of_ok he]
    intro h
    cases h

end Analyzer

end LispCore
