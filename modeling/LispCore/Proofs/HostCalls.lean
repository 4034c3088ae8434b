import LispCore.Reader
import LispCore.Proofs.Compaction
import LispCore.Proofs.Expansion
import LispCore.Proofs.MacroFree
import LispCore.Proofs.Sequencing

/-!
# Calls from the host

A program calls a global function with data by the form `callForm`, in which every argument is
quoted; the host calls it by `Interpreter.call`. Evaluation of the form comes to the same
application one level deeper (`Interpreter.eval_callForm`). As long as the levels suffice this makes
no difference to functions that do not look at the depth (`applyBelow_of_le`), so the two ways to
call agree.
-/

namespace LispCore

/-! ## Application one level deeper -/

/-- Applies a value at a depth, with `left` levels left under the limit. -/
def applyBelow (host : Host) (limit depth left : Nat) (f : Value) (args : List Value) : Run Value :=
  Level.apply ⟨host, ⟨depth, limit⟩, eval host limit left⟩ f args

/-- With more levels left, an application goes on where it was cut off and is the same elsewhere. -/
theorem Limited.applyBelow {lost : Error → Prop} {apart : Prop} {host : Host}
    {allowed : String → Bool} {alarm : Error} {limit limit' left left' : Nat}
    (h : Limited lost apart host allowed alarm limit limit')
    (hleft : Deepened lost limit limit' left left') (depth depth' : Nat) (f : Value)
    (args : List Value) :
    (truncation lost apart).rel
      (LispCore.applyBelow (host.only allowed alarm) limit depth left f args)
      (LispCore.applyBelow host limit' depth' left' f args) := by
  refine Level.apply_agree (h.eval hleft) (fun name args => ?_) f args
  exact (Host.only_cases h.blind _ _ name args).imp_right fun hreply =>
    ⟨alarm, hreply, truncation_forgives h.alarm⟩

/-- Under its own limit the host may be pinned to it. -/
theorem applyBelow_pinned (host : Host) (limit depth left : Nat) (f : Value) (args : List Value) :
    applyBelow (host.pinned limit) limit depth left f args =
      applyBelow host limit depth left f args := by
  let fixed : Level Run := ⟨host.pinned limit, ⟨depth, limit⟩, eval (host.pinned limit) limit left⟩
  let free : Level Run := ⟨host, ⟨depth, limit⟩, eval host limit left⟩
  have heval (env : Env) (e : Expr) : Agreement.same.rel (fixed.eval env e) (free.eval env e) :=
    eval_pinned host limit left env e
  exact Level.apply_agree heval (fun _ _ => .inl rfl) f args

section

variable {host : Host} {allowed : String → Bool} {limit left left' : Nat} {f : Value}
  {args : List Value} {s : Store}

/-- An application in which no alarm goes off is the application without alarms, at any depth and
with any greater number of levels, unless it exceeds the limit. -/
theorem applyBelow_only {alarm : Error} (hblind : ∀ name, allowed name = true → host.Blind name)
    (hle : left ≤ left') {depth : Nat}
    (hquiet : (applyBelow (host.only allowed alarm) limit depth left f args).answer s
      ≠ .error alarm)
    (hdepth : left = left' ∨ (applyBelow (host.only allowed alarm) limit depth left f args).answer s
      ≠ .error (.depthExceeded limit)) (depth' : Nat) :
    applyBelow host limit depth' left' f args s =
      applyBelow (host.only allowed alarm) limit depth left f args s := by
  let lost (e : Error) : Prop := e = alarm ∨ left ≠ left' ∧ e = .depthExceeded limit
  have hlimited : Limited lost False host allowed alarm limit limit := ⟨hblind, .inl rfl, .inl rfl⟩
  have hdeepened : Deepened lost limit limit left left' := by
    refine ⟨hle, ?_⟩
    by_cases heq : left = left'
    · exact .inl ⟨heq, rfl⟩
    · exact .inr (.inr ⟨heq, rfl⟩)
  refine (hlimited.applyBelow hdeepened depth depth' f args s).2 ⟨fun e he => ?_, False.elim⟩
  rintro (rfl | ⟨hne, rfl⟩)
  · exact hquiet he
  · exact hdepth.elim hne fun hdepth => hdepth he

/-- An application that has enough levels goes the same way at another depth if it has more, if the
host functions that it calls do not look at the depth. -/
theorem applyBelow_of_le (hblind : ∀ name, allowed name = true → host.DepthBlind name)
    (hle : left ≤ left') {depth : Nat}
    (hcalls : CallsOnly allowed host (fun host => applyBelow host limit depth left f args) s)
    (hdepth : (applyBelow host limit depth left f args).answer s ≠ .error (.depthExceeded limit))
    (depth' : Nat) :
    applyBelow host limit depth' left' f args s = applyBelow host limit depth left f args s := by
  obtain ⟨alarm, hquiet⟩ := hcalls
  dsimp only at hquiet
  rw [← applyBelow_pinned] at hquiet
  rw [← applyBelow_pinned host] at hdepth
  rw [← applyBelow_pinned host, ← applyBelow_pinned host limit depth]
  have hpinned (name : String) (hname : allowed name = true) : (host.pinned limit).Blind name :=
    (hblind name hname).pinned limit
  have hsame : applyBelow (host.pinned limit) limit depth left f args s =
      applyBelow ((host.pinned limit).only allowed alarm) limit depth left f args s :=
    applyBelow_only hpinned (Nat.le_refl left) hquiet (.inl rfl) depth
  rw [hsame]
  rw [Run.answer_congr hsame] at hdepth
  exact applyBelow_only hpinned hle hquiet (.inr hdepth) depth'

end

/-! ## The form of a call -/

/-- The form `(name (quote a) (quote b) ...)`. -/
def callForm (symbol : Symbol) (args : List Value) : Value :=
  .list (.symbol symbol :: args.map Reader.quoteForm)

/-- The symbol does not stand for a macro there. -/
def Env.NoMacro (s : Store) (env : Env) (symbol : Symbol) : Prop :=
  ∀ v, env.lookup (s.globals env.rootId) symbol = .ok v → v.isMacro = false

namespace Analyzer

variable {a : Analyzer} {env : Env} {s : Store} {symbol : Symbol}

theorem analyze_symbol (a : Analyzer) (host : Host) (limit left : Nat) (env : Env) (symbol : Symbol)
    (s : Store) :
    (a.analyze host limit (left + 1) env (.symbol symbol) : Run Expr) s =
      .ok (.resolve symbol) s := by
  rw [analyze_succ]
  exact Run.bind_of_ok (Level.expand_of_macroOf _ _ rfl)

/-- Whatever is quoted is data. -/
theorem analyze_quoteForm (hquote : a.specials.find? "quote" = some .quote)
    (hfree : env.NoMacro s (.ofBase "quote")) (host : Host) (limit left : Nat) (v : Value) :
    (a.analyze host limit (left + 1) env (Reader.quoteForm v) : Run Expr) s =
      .ok (.quote v) s := by
  have hspecial : a.special? (.symbol (.ofBase "quote")) = some .quote := hquote
  unfold Reader.quoteForm
  rw [a.analyze_list_of_macroOf host limit left (Level.macroOf_of_lookup hfree _), hspecial]
  rfl

/-- The form of a call is analyzed to a call of what the name stands for with constants. -/
theorem analyze_callForm (hspecial : a.special? (.symbol symbol) = none)
    (hplain : env.NoMacro s symbol) (hquote : a.specials.find? "quote" = some .quote)
    (hfree : env.NoMacro s (.ofBase "quote")) (host : Host) (limit left : Nat)
    (args : List Value) :
    (a.analyze host limit (left + 2) env (callForm symbol args) : Run Expr) s =
      .ok (.invoke (Value.symbol symbol).display (.resolve symbol) (args.map .quote)) s := by
  have hargs : ((args.map Reader.quoteForm).mapM (a.analyze host limit (left + 1) env)
      : Run (List Expr)) s = .ok (args.map .quote) s := by
    rw [List.mapM_map]
    exact Run.mapM_of_ok fun v _ => analyze_quoteForm hquote hfree host limit left v
  unfold callForm
  rw [a.analyze_list_of_macroOf host limit (left + 1) (Level.macroOf_of_lookup hplain _), hspecial]
  refine (Run.bind_of_ok (a.analyze_symbol host limit left env symbol s)).trans ?_
  exact Run.bind_of_ok hargs

end Analyzer

namespace Interpreter

variable {i : Interpreter} {symbol : Symbol} {s : Store}

theorem call_eq (i : Interpreter) (host : Host) (depth : Nat) (name : String) (args : List Value)
    (s : Store) :
    (i.call host depth name args : Run Value) s =
      match i.env.lookup (s.globals i.root) (Symbol.parse name) with
      | .error e => .error e s
      | .ok f => applyBelow host i.maxDepth depth (i.maxDepth - depth) f args s := by
  refine (Run.bind_of_ok (Env.lookupM_eq i.env (Symbol.parse name) s)).trans ?_
  change (ofExcept (i.env.lookup (s.globals i.root) (Symbol.parse name)) >>= _ : Run Value) s = _
  cases i.env.lookup (s.globals i.root) (Symbol.parse name) with
  | error e => rfl
  | ok f => rfl

/-- The form of a call evaluates the name, then applies its value to the data. -/
theorem eval_callForm (hspecial : i.analyzer.special? (.symbol symbol) = none)
    (hplain : i.env.NoMacro s symbol) (hquote : i.analyzer.specials.find? "quote" = some .quote)
    (hfree : i.env.NoMacro s (.ofBase "quote")) (host : Host) {depth left : Nat}
    (hleft : i.maxDepth - depth = left + 2) (args : List Value) :
    (i.eval host depth (callForm symbol args) : Run Value) s =
      match i.env.lookup (s.globals i.root) symbol with
      | .error e => .error e s
      | .ok f =>
        if f.isInvokable then
          applyBelow host i.maxDepth (i.maxDepth - (left + 1)) (left + 1) f args s
        else .error (.notInvokable (Value.symbol symbol).display f.typeName) s := by
  have hcontext : (i.context depth).left = left + 2 := hleft
  unfold eval Analyzer.evalTop
  rw [hcontext]
  refine (Run.bind_of_ok (Analyzer.analyze_callForm hspecial hplain hquote hfree host i.maxDepth
    left args)).trans ?_
  have hargs : ((args.map Expr.quote).mapM (LispCore.eval host i.maxDepth (left + 1) i.env)
      : Run (List Value)) s = .ok args s := by
    rw [List.mapM_map]
    refine (Run.mapM_of_ok (g := id) fun v _ => rfl).trans ?_
    rw [List.map_id]
  have htarget : (LispCore.eval host i.maxDepth (left + 1) i.env (.resolve symbol) : Run Value) s =
      match i.env.lookup (s.globals i.root) symbol with
      | .error e => .error e s
      | .ok f => .ok f s := by
    refine (Run.bind_of_ok (Env.lookupM_eq i.env symbol s)).trans ?_
    change (ofExcept (i.env.lookup (s.globals i.root) symbol) : Run Value) s = _
    cases i.env.lookup (s.globals i.root) symbol with
    | error e => rfl
    | ok f => rfl
  cases hfound : i.env.lookup (s.globals i.root) symbol with
  | error e =>
    rw [hfound] at htarget
    exact Run.bind_of_error htarget
  | ok f =>
    rw [hfound] at htarget
    refine (Run.bind_of_ok htarget).trans ?_
    dsimp only
    split
    · exact Run.bind_of_ok hargs
    · rfl

/-- A call needs two levels: one for the list and one for the name. -/
theorem exists_levels_of_eval (hspecial : i.analyzer.special? (.symbol symbol) = none)
    (hplain : i.env.NoMacro s symbol) {host : Host} {depth : Nat} {args : List Value}
    (hdepth : (i.eval host depth (callForm symbol args) : Run Value).answer s
      ≠ .error (.depthExceeded i.maxDepth)) : ∃ left, i.maxDepth - depth = left + 2 := by
  have hcut (h : (i.analyzer.analyze host i.maxDepth (i.maxDepth - depth) i.env
      (callForm symbol args) : Run Expr) s = .error (.depthExceeded i.maxDepth) s) : False :=
    hdepth (Run.answer_of_error (Run.bind_of_error h))
  match hleft : i.maxDepth - depth with
  | 0 =>
    rw [hleft] at hcut
    exact (hcut rfl).elim
  | 1 =>
    rw [hleft] at hcut
    refine (hcut ?_).elim
    unfold callForm
    rw [i.analyzer.analyze_list_of_macroOf host i.maxDepth 0 (Level.macroOf_of_lookup hplain _),
      hspecial]
    rfl
  | left + 2 => exact ⟨left, rfl⟩

/-- The two ways to call agree. Where the name is no special form and stands for no macro, and
quoting is as usual, a form that calls it with quoted data and does not exceed the limit on nesting
does what the call by the host with the data does: it gives the same value or error and the same
store, if the host functions that it calls do not look at the depth. Only if the name stands for
what cannot be called, the two errors name it differently, the form by the name and the host by the
value; both have done nothing. -/
theorem call_eq_eval (i : Interpreter) (host : Host) (depth : Nat) (name : String)
    (args : List Value) (s : Store) {allowed : String → Bool}
    (hspecial : i.analyzer.special? (.symbol (Symbol.parse name)) = none)
    (hplain : i.env.NoMacro s (Symbol.parse name))
    (hquote : i.analyzer.specials.find? "quote" = some .quote)
    (hfree : i.env.NoMacro s (.ofBase "quote"))
    (hblind : ∀ name, allowed name = true → host.DepthBlind name)
    (hcalls : CallsOnly allowed host
      (fun host => i.eval host depth (callForm (Symbol.parse name) args)) s)
    (hdepth : (i.eval host depth (callForm (Symbol.parse name) args) : Run Value).answer s
      ≠ .error (.depthExceeded i.maxDepth)) :
    let found := i.env.lookup (s.globals i.root) (Symbol.parse name)
    let call : Run Value := i.call host depth name args
    let eval : Run Value := i.eval host depth (callForm (Symbol.parse name) args)
    ((∀ v, found = .ok v → v.isInvokable = true) → call s = eval s) ∧
    ∀ v, found = .ok v → v.isInvokable = false →
      call s = .error (.notInvokable v.display v.typeName) s ∧
      eval s = .error (.notInvokable (Value.symbol (Symbol.parse name)).display v.typeName) s := by
  intro found call eval
  obtain ⟨left, hleft⟩ := exists_levels_of_eval hspecial hplain hdepth
  have hcall : call s = _ := i.call_eq host depth name args s
  have heval (host : Host) := eval_callForm hspecial hplain hquote hfree host hleft args
  refine ⟨fun hinvokable => ?_, fun v hv hrefused => ?_⟩
  · cases hfound : i.env.lookup (s.globals i.root) (Symbol.parse name) with
    | error e =>
      rw [hfound] at hcall
      have hown := heval host
      rw [hfound] at hown
      exact hcall.trans hown.symm
    | ok f =>
      -- under every host the form comes to the application one level deeper
      have happly (host : Host) :
          (i.eval host depth (callForm (Symbol.parse name) args) : Run Value) s =
            applyBelow host i.maxDepth (i.maxDepth - (left + 1)) (left + 1) f args s := by
        rw [heval host, hfound]
        exact if_pos (hinvokable f hfound)
      obtain ⟨alarm, hquiet⟩ := hcalls
      rw [Run.answer_congr (happly _)] at hquiet hdepth
      rw [hfound, hleft] at hcall
      calc call s = applyBelow host i.maxDepth depth (left + 2) f args s := hcall
        _ = applyBelow host i.maxDepth (i.maxDepth - (left + 1)) (left + 1) f args s :=
          applyBelow_of_le hblind (Nat.le_succ (left + 1)) ⟨alarm, hquiet⟩ hdepth depth
        _ = eval s := (happly host).symm
  · have hfound : i.env.lookup (s.globals i.root) (Symbol.parse name) = .ok v := hv
    rw [hfound] at hcall
    have hown := heval host
    rw [hfound] at hown
    refine ⟨hcall.trans ?_, hown.trans (if_neg (by rw [hrefused]; decide))⟩
    dsimp only [applyBelow]
    rw [Level.apply_of_not_invokable _ hrefused args]
    rfl

/-- Returns all arguments but the first. -/
def keepFn : Closure :=
  ⟨0, none, none, false,
    [⟨[⟨none, "x"⟩, ⟨none, "xs"⟩], true, some (.resolve ⟨none, "xs"⟩)⟩], some (.root 0)⟩

/-- Data that looks like a call stays data both ways, and a number is refused both ways. -/
theorem call_eq_eval_keep :
    let i : Interpreter := ⟨0, .standard, 9⟩
    let s : Store := { roots := [⟨"user", [("user", [("five", .int 5), ("keep", .fn keepFn)])]⟩] }
    let data : List Value := [.nil, .symbol ⟨none, "x"⟩, .list [.symbol ⟨none, "five"⟩]]
    (i.call standardHost 0 "user/keep" data : Run Value) s = .ok (.list data.tail) s ∧
    (i.eval standardHost 0 (callForm (Symbol.parse "user/keep") data) : Run Value) s =
      .ok (.list data.tail) s ∧
    (i.call standardHost 0 "five" data : Run Value) s = .error (.notInvokable "5" "int") s ∧
    (i.eval standardHost 0 (callForm (Symbol.parse "five") data) : Run Value) s =
      .error (.notInvokable "five" "int") s := by
  intro i s data
  have hblind (name : String) (hname : Builtin.isBlind name = true) :
      standardHost.DepthBlind name := fun _ _ _ _ => standardHost_blind name hname _ _ _
  have hnone : i.env.lookup (s.globals i.root) (.ofBase "quote") = .error (.notFound "quote") :=
    rfl
  have hkeep : i.env.lookup (s.globals i.root) (Symbol.parse "user/keep") = .ok (.fn keepFn) :=
    rfl
  have hfive : i.env.lookup (s.globals i.root) (Symbol.parse "five") = .ok (.int 5) := rfl
  have hfree : i.env.NoMacro s (.ofBase "quote") := by
    intro v hv
    cases hnone.symm.trans hv
  have hplain : i.env.NoMacro s (Symbol.parse "user/keep") := by
    intro v hv
    cases hkeep.symm.trans hv
    rfl
  have hplain' : i.env.NoMacro s (Symbol.parse "five") := by
    intro v hv
    cases hfive.symm.trans hv
    rfl
  have hspecial : i.analyzer.special? (.symbol (Symbol.parse "user/keep")) = none := rfl
  have hspecial' : i.analyzer.special? (.symbol (Symbol.parse "five")) = none := rfl
  have hleft : i.maxDepth - 0 = 7 + 2 := rfl
  -- neither form calls a host function, so both run alike under every host
  have hrun (host : Host) :
      (i.eval host 0 (callForm (Symbol.parse "user/keep") data) : Run Value) s =
        .ok (.list data.tail) s := by
    rw [eval_callForm hspecial hplain rfl hfree host hleft data, hkeep]
    change applyBelow host 9 1 8 (.fn keepFn) data s = _
    dsimp only [applyBelow]
    rw [Level.apply_fn]
    rfl
  have hrefused (host : Host) :
      (i.eval host 0 (callForm (Symbol.parse "five") data) : Run Value) s =
        .error (.notInvokable "five" "int") s := by
    rw [eval_callForm hspecial' hplain' rfl hfree host hleft data, hfive]
    rfl
  have hkept (v : Value) (e : Error) : (.ok v : Except Error Value) ≠ .error e := by
    intro h
    cases h
  have hdepth : (.error (.notInvokable "five" "int") : Except Error Value)
      ≠ .error (.depthExceeded 9) := by
    intro h
    cases h
  have hquiet : (.error (.notInvokable "five" "int") : Except Error Value)
      ≠ .error (.eval "alarm") := by
    intro h
    cases h
  obtain ⟨hsame, -⟩ := call_eq_eval i standardHost 0 "user/keep" data s hspecial hplain rfl hfree
    hblind ⟨.eval "alarm", Run.answer_of_ok (hrun _) ▸ hkept _ _⟩
    (Run.answer_of_ok (hrun _) ▸ hkept _ _)
  obtain ⟨-, hnumber⟩ := call_eq_eval i standardHost 0 "five" data s hspecial' hplain' rfl hfree
    hblind ⟨.eval "alarm", Run.answer_of_error (hrefused _) ▸ hquiet⟩
    (Run.answer_of_error (hrefused _) ▸ hdepth)
  have hcall := hsame fun v hv => by
    cases hkeep.symm.trans hv
    rfl
  exact ⟨hcall.trans (hrun _), hrun _, (hnumber (.int 5) hfive rfl).1, hrefused _⟩

end Interpreter

end LispCore
