import LispCore.Proofs.Limits
import LispCore.Proofs.MacroFree

/-!
# Forms one by one and forms in a block

`Interpreter.evalAll` analyzes each form against the store that the forms before it have left; a
`do` form is analyzed as a whole before any of it is evaluated, and one level deeper. Without macros
the difference cannot be seen: analysis does not depend on the store (`analyze_standstill_same`),
and neither analysis nor evaluation depends on the depth as long as the limit is not hit
(`truncation`).
-/

namespace LispCore

variable {α β : Type}

/-- A block of forms. -/
def doForm (forms : List Value) : Value := .list (.symbol ⟨none, "do"⟩ :: forms)

/-! ## Runs of lists -/

namespace Run

/-- Runs that each succeed from a store and leave it succeed together. -/
theorem mapM_of_ok {f : β → Run α} {g : β → α} {s : Store} {xs : List β}
    (h : ∀ x ∈ xs, f x s = .ok (g x) s) : xs.mapM f s = .ok (xs.map g) s := by
  suffices go : ∀ acc, List.mapM.loop f xs acc s = .ok (acc.reverse ++ xs.map g) s from go []
  induction xs with
  | nil => intro acc; simp only [List.map_nil, List.append_nil]; rfl
  | cons x xs ih =>
    intro acc
    have hrest := ih (fun y hy => h y (List.mem_cons_of_mem x hy)) (g x :: acc)
    refine (bind_of_ok (h x List.mem_cons_self)).trans (hrest.trans ?_)
    simp only [List.reverse_cons, List.append_assoc, List.singleton_append, List.map_cons]

/-- Two sequences are the same if each step is, from every store that satisfies an invariant, and
the first passes only through such stores between its steps. -/
theorem foldlM_congr_of_invariant {f g : β → Run α} (Inv : Store → Prop) {xs : List β}
    (hstep : ∀ x ∈ xs, ∀ s, Inv s → f x s = g x s) (init : α) {s : Store}
    (hinv : ∀ k, Inv (Run.final ((xs.take k).foldlM (fun _ x => f x) init) s)) :
    xs.foldlM (fun _ x => f x) init s = xs.foldlM (fun _ x => g x) init s := by
  induction xs generalizing init s with
  | nil => rfl
  | cons x xs ih =>
    have hs : f x s = g x s := hstep x List.mem_cons_self s (hinv 0)
    cases hfx : f x s with
    | error e s' =>
      rw [hfx] at hs
      exact (bind_of_error hfx).trans (bind_of_error hs.symm).symm
    | ok a s' =>
      rw [hfx] at hs
      refine (bind_of_ok hfx).trans (.trans ?_ (bind_of_ok hs.symm).symm)
      refine ih (fun y hy => hstep y (List.mem_cons_of_mem x hy)) a fun k => ?_
      have hk := hinv (k + 1)
      rwa [List.take_succ_cons, List.foldlM_cons, final_congr (bind_of_ok hfx)] at hk

end Run

namespace Interpreter

variable (i : Interpreter) {host : Host} {depth : Nat} {forms : List Value} {s : Store}

/-- Where every form analyzes to its expression, analyzing and evaluating the forms in turn is
evaluating the expressions in turn, as long as no macro gets bound. -/
theorem evalAll_eq_exprs {exprOf : Value → Expr}
    (hmacros : ∀ k, ((Run.final (i.evalAll host depth (forms.take k)) s).globals i.root).MacroFree)
    (hforms : ∀ form ∈ forms, (i.analyze host depth form : Run Expr) s = .ok (exprOf form) s) :
    (i.evalAll host depth forms : Run Value) s =
      (forms.map exprOf).foldlM (fun _ e =>
        (LispCore.eval host i.maxDepth (i.context depth).left i.env e : Run Value)) .nil s := by
  have hfree : i.env.MacroFreeIn s := hmacros 0
  rw [List.foldlM_map]
  refine Run.foldlM_congr_of_invariant (fun s => i.env.MacroFreeIn s) ?_ Value.nil hmacros
  intro form hform s' hs'
  -- the store has changed since `s`, but what the form analyzes to has not
  obtain ⟨hanswer, -, hfinal⟩ := i.analyzer.analyze_standstill_same host host i.maxDepth
    (i.context depth).left hfree hs' form
  have hok := Run.answer_of_ok (hforms form hform)
  exact Run.bind_of_ok (Run.eq_ok (hanswer.symm.trans hok) hfinal)

/-- A block is analyzed to the block of the expressions of its forms. -/
theorem analyze_doForm {left : Nat} (hdo : i.analyzer.specials.find? "do" = some .block)
    (hfree : i.env.MacroFreeIn s) :
    (i.analyzer.analyze host i.maxDepth (left + 1) i.env (doForm forms) : Run Expr) s =
      (do return .block (← forms.mapM (i.analyzer.analyze host i.maxDepth left i.env))
        : Run Expr) s := by
  have hspecial : i.analyzer.special? (.symbol ⟨none, "do"⟩) = some .block := hdo
  unfold doForm
  rw [Analyzer.analyze_list_macroFree i.analyzer host i.maxDepth left hfree, hspecial]
  rfl

/-- The expression that a form analyzes to. -/
def exprOf (i : Interpreter) (host : Host) (depth : Nat) (s : Store) (form : Value) : Expr :=
  match Run.answer (i.analyze host depth form) s with
  | .ok e => e
  | .error _ => .const .nil

theorem analyze_eq_exprOf (hfree : i.env.MacroFreeIn s) {form : Value}
    (h : ∃ e, Run.answer (i.analyze host depth form) s = .ok e) :
    (i.analyze host depth form : Run Expr) s = .ok (i.exprOf host depth s form) s := by
  obtain ⟨e, he⟩ := h
  have hfinal := (i.analyzer.analyze_standstill_same host host i.maxDepth
    (i.context depth).left hfree hfree form).2.1
  unfold exprOf
  rw [he]
  exact Run.eq_ok he hfinal

/-- A block that is not cut off runs as its expressions do one level higher, under the whole
host. -/
theorem exprs_eq_eval_doForm {lost : Error → Prop} {allowed : String → Bool} {alarm : Error}
    {exprOf : Value → Expr} (h : Limited lost False host allowed alarm i.maxDepth i.maxDepth)
    (hdepth : ∀ n, lost (.depthExceeded n))
    (hdo : i.analyzer.specials.find? "do" = some .block) (hfree : i.env.MacroFreeIn s)
    (hforms : ∀ form ∈ forms, (i.analyze host depth form : Run Expr) s = .ok (exprOf form) s)
    (hkept : ∀ e, Run.answer (i.eval (host.only allowed alarm) depth (doForm forms)) s = .error e →
      ¬ lost e) :
    ((forms.map exprOf).foldlM (fun _ e =>
        LispCore.eval host i.maxDepth (i.context depth).left i.env e) .nil : Run Value) s =
      (i.eval (host.only allowed alarm) depth (doForm forms) : Run Value) s := by
  unfold eval Analyzer.evalTop at hkept ⊢
  unfold analyze at hforms
  cases hleft : (i.context depth).left with
  | zero =>
    rw [hleft] at hkept
    exact absurd (hdepth _) (hkept _ rfl)
  | succ left =>
    rw [hleft] at hkept hforms
    have hdeepened : Deepened lost i.maxDepth i.maxDepth left (left + 1) :=
      ⟨Nat.le_succ left, .inr (hdepth _)⟩
    have hwidened : i.analyzer.Widened lost i.analyzer := ⟨rfl, rfl, Nat.le_refl _, .inl rfl⟩
    have hbody : forms.mapM (i.analyzer.analyze (m := Run) (host.only allowed alarm) i.maxDepth left
        i.env) s = .ok (forms.map exprOf) s := by
      have hrel := Agreement.mapM fun form (_ : form ∈ forms) =>
        h.analyze hdeepened hwidened i.env form
      rw [← (hrel s).2 ⟨fun e he => hkept e ?_, False.elim⟩]
      · exact Run.mapM_of_ok hforms
      refine Run.answer_bind_of_error _ ?_
      exact (Run.answer_congr (i.analyze_doForm hdo hfree)).trans (Run.answer_bind_of_error _ he)
    have hanalyzed : (i.analyzer.analyze (host.only allowed alarm) i.maxDepth (left + 1) i.env
        (doForm forms) : Run Expr) s = .ok (.block (forms.map exprOf)) s := by
      rw [i.analyze_doForm hdo hfree]
      exact Run.bind_of_ok hbody
    have hblock := Run.bind_of_ok (f := LispCore.eval (host.only allowed alarm) i.maxDepth
      (left + 1) i.env) hanalyzed
    refine (Eq.trans ?_ hblock.symm)
    have hrel := Agreement.foldlM (fun _ e (_ : e ∈ forms.map exprOf) =>
      h.eval hdeepened i.env e) Value.nil
    refine (hrel s).2 ⟨fun e he => hkept e ?_, False.elim⟩
    exact (Run.answer_congr hblock).trans he

/-- Forms run one by one and forms run as one block give the same value or error and leave the same
store, also when one of them fails: provided that each form analyzes, that no macro is bound before,
between and after the forms, that the host functions called are blind to the depth, and that the
block does not hit the limit on nesting. -/
theorem evalAll_eq_eval_doForm {allowed : String → Bool}
    (hblind : ∀ name, allowed name = true → host.Blind name)
    (hdo : i.analyzer.specials.find? "do" = some .block)
    (hanalyze : ∀ form ∈ forms, ∃ e, Run.answer (i.analyze host depth form) s = .ok e)
    (hmacros : ∀ k, ((Run.final (i.evalAll host depth (forms.take k)) s).globals i.root).MacroFree)
    (hcalls : CallsOnly allowed host (fun host => i.eval host depth (doForm forms)) s)
    (hlimit : ∀ n, Run.answer (i.eval host depth (doForm forms)) s ≠ .error (.depthExceeded n)) :
    (i.evalAll host depth forms : Run Value) s =
      (i.eval host depth (doForm forms) : Run Value) s := by
  obtain ⟨alarm, hquiet⟩ := hcalls
  have hfree : i.env.MacroFreeIn s := hmacros 0
  have hforms : ∀ form ∈ forms, (i.analyze host depth form : Run Expr) s =
      .ok (i.exprOf host depth s form) s :=
    fun form hform => i.analyze_eq_exprOf hfree (hanalyze form hform)
  have hsame : (i.eval host depth (doForm forms) : Run Value) s =
      (i.eval (host.only allowed alarm) depth (doForm forms) : Run Value) s :=
    i.analyzer.runWithin_only i.env (doForm forms) hblind hquiet
  let lost (e : Error) : Prop := e = alarm ∨ ∃ n, e = .depthExceeded n
  have hlimited : Limited lost False host allowed alarm i.maxDepth i.maxDepth :=
    ⟨hblind, .inl rfl, .inl rfl⟩
  rw [i.evalAll_eq_exprs hmacros hforms, hsame]
  refine i.exprs_eq_eval_doForm hlimited (fun n => .inr ⟨n, rfl⟩) hdo hfree hforms fun e he => ?_
  rintro (rfl | ⟨n, rfl⟩)
  · exact hquiet he
  · exact hlimit n ((Run.answer_congr hsame).trans he)

/-- An interpreter over a new root. -/
def fresh : Interpreter := ⟨0, .standard, 100⟩

/-- The store of that root. -/
def freshStore : Store := { roots := [Globals.ofNamespace Globals.defaultNamespace] }

/-- The forms `(def a 1)`, `c` and `(def b 2)`. -/
def brokenForms : List Value :=
  [.list [.symbol ⟨none, "def"⟩, .symbol ⟨none, "a"⟩, .int 1], .symbol ⟨none, "c"⟩,
    .list [.symbol ⟨none, "def"⟩, .symbol ⟨none, "b"⟩, .int 2]]

/-- As a block too, these forms fail at the second and keep the definition before it. -/
theorem eval_doForm_brokenForms :
    (fresh.evalAll standardHost 0 brokenForms : Run Value) freshStore =
      (fresh.eval standardHost 0 (doForm brokenForms) : Run Value) freshStore ∧
    (Run.answer (fresh.eval standardHost 0 (doForm brokenForms)) freshStore).isOk = false ∧
    (["a", "b"].map fun name =>
      (((Run.final (fresh.eval standardHost 0 (doForm brokenForms)) freshStore).globals 0).lookup
        ⟨none, name⟩).isOk) = [true, false] := by
  refine ⟨?_, by decide +kernel, by decide +kernel⟩
  refine fresh.evalAll_eq_eval_doForm standardHost_blind rfl ?_ ?_ ?_ ?_
  · intro form hform
    have hok : ∀ form ∈ brokenForms,
        (Run.answer (fresh.analyze standardHost 0 form) freshStore).isOk = true := by decide +kernel
    cases h : Run.answer (fresh.analyze standardHost 0 form) freshStore with
    | ok e => exact ⟨e, rfl⟩
    | error e => cases (h ▸ hok form hform : (Except.error e : Except Error Expr).isOk = true)
  · intro k
    refine Globals.macroFree_of_all ?_
    match k with
    | 0 => decide +kernel
    | 1 => decide +kernel
    | 2 => decide +kernel
    | k + 3 =>
      rw [List.take_of_length_le (by simp [brokenForms])]
      decide +kernel
  · refine ⟨.eval "alarm", fun h => ?_⟩
    have hquiet : (match Run.answer (fresh.eval (standardHost.only Builtin.isBlind (.eval "alarm"))
        0 (doForm brokenForms)) freshStore with
      | .error (.eval _) => false
      | _ => true) = true := by decide +kernel
    rw [h] at hquiet
    cases hquiet
  · intro n h
    have hwithin : (match Run.answer (fresh.eval standardHost 0 (doForm brokenForms))
        freshStore with
      | .error (.depthExceeded _) => false
      | _ => true) = true := by decide +kernel
    rw [h] at hwithin
    cases hwithin

end Interpreter

end LispCore
