import LispCore.Proofs.Equality
import LispCore.Proofs.Expansion
import LispCore.Proofs.Outcomes

/-!
# Vector literals

The evaluation of a vector literal starts from the items as they are read and replaces those that
differ from their values. So it is the plain evaluation of the items in order, except that an item
which equals its value stands for it. Equality identifies the two zeros: an item that stands for
its value may have a zero of the other sign, but only if it is a call.
-/

namespace LispCore

/-! ## Identity of values -/

namespace Double

/-- The sign of a zero, and nothing for every other number. -/
def zeroSigns (x : Double) : List Bool := if x.magnitude = 0 then [x.isNegative] else []

variable {x y : Double}

/-- Equal numbers are the same exactly if they are not zeros of different signs. -/
theorem zeroSigns_of_beq (h : x.beq y = true) :
    x.zeroSigns.length = y.zeroSigns.length ∧
      ((x.bits == y.bits) = true ↔ x.zeroSigns = y.zeroSigns) := by
  obtain ⟨hmagnitude, hsign⟩ := key_eq_key_iff.1 (beq_iff_key.1 h).2
  have hsame : (x.bits == y.bits) = true ↔ x.isNegative = y.isNegative := by
    rw [beq_iff_eq, ← mk.injEq, eq_iff]
    exact and_iff_right hmagnitude
  rw [hsame, zeroSigns, zeroSigns, ← hmagnitude]
  split
  · simp
  · rename_i hzero
    exact ⟨rfl, fun _ => rfl, fun _ => hsign.resolve_left hzero⟩

end Double

namespace Value

mutual

/-- Whether nothing tells two values apart: they are of one type, floats have the same bits, also
inside collections, and functions and foreign objects are the same ones. -/
def identical : Value → Value → Bool
  | .nil, .nil => true
  | .bool a, .bool b => a == b
  | .int a, .int b => a == b
  | .float a, .float b => a.bits == b.bits
  | .char a, .char b => a == b
  | .str a, .str b => a == b
  | .symbol a, .symbol b => a == b
  | .keyword a, .keyword b => a == b
  | .list xs, .list ys => allIdentical xs ys
  | .vector xs, .vector ys => allIdentical xs ys
  | .fn f, .fn g => f.id == g.id
  | .native f, .native g => f.id == g.id
  | .foreign x, .foreign y => x.id == y.id
  | _, _ => false

def allIdentical : List Value → List Value → Bool
  | [], [] => true
  | x :: xs, y :: ys => identical x y && allIdentical xs ys
  | _, _ => false

end

mutual

/-- The signs of the zeros in a value, in the order in which it is written. -/
def zeroSigns : Value → List Bool
  | .float x => x.zeroSigns
  | .list xs => allZeroSigns xs
  | .vector xs => allZeroSigns xs
  | _ => []

def allZeroSigns : List Value → List Bool
  | [] => []
  | x :: xs => zeroSigns x ++ allZeroSigns xs

end

theorem allIdentical_refl_of {xs : List Value} (h : ∀ v ∈ xs, v.identical v = true) :
    allIdentical xs xs = true := by
  induction xs with
  | nil => rfl
  | cons v xs ih =>
    obtain ⟨hv, hxs⟩ := List.forall_mem_cons.1 h
    rw [allIdentical, hv, ih hxs]
    rfl

theorem identical_refl (v : Value) : v.identical v = true := by
  induction v using collection_induction with
  | list xs ih => exact allIdentical_refl_of ih
  | vector xs ih => exact allIdentical_refl_of ih
  | other v hlist hvector =>
    cases v with
    | list items => exact absurd rfl (hlist items)
    | vector items => exact absurd rfl (hvector items)
    | _ => simp [identical]

/-- The zeros of two values correspond, and nothing but their signs tells the values apart. -/
def SignsDecide (v w : Value) : Prop :=
  v.zeroSigns.length = w.zeroSigns.length ∧
    (v.identical w = true ↔ v.zeroSigns = w.zeroSigns)

theorem allZeroSigns_of_allBeq {xs : List Value}
    (h : ∀ v ∈ xs, ∀ w : Value, v.beq w = true → v.SignsDecide w) {ys : List Value}
    (hbeq : allBeq xs ys = true) :
    (allZeroSigns xs).length = (allZeroSigns ys).length ∧
      (allIdentical xs ys = true ↔ allZeroSigns xs = allZeroSigns ys) := by
  induction xs generalizing ys with
  | nil =>
    cases ys with
    | nil => exact ⟨rfl, by simp [allIdentical]⟩
    | cons w ys => cases hbeq
  | cons v xs ih =>
    obtain ⟨hv, hxs⟩ := List.forall_mem_cons.1 h
    cases ys with
    | nil => cases hbeq
    | cons w ys =>
      rw [allBeq, Bool.and_eq_true] at hbeq
      obtain ⟨hlength, hsame⟩ := hv w hbeq.1
      obtain ⟨hlengths, hsames⟩ := ih hxs hbeq.2
      rw [allIdentical, Bool.and_eq_true, hsame, hsames, allZeroSigns, allZeroSigns,
        List.length_append, List.length_append, hlength, hlengths]
      exact ⟨rfl, fun h => by rw [h.1, h.2], fun h => List.append_inj h hlength⟩

/-- Equal values are identical exactly if their zeros have the same signs. -/
theorem signsDecide_of_beq {v w : Value} (h : v.beq w = true) : v.SignsDecide w := by
  induction v using collection_induction generalizing w with
  | list xs ih =>
    cases w with
    | list ys => exact allZeroSigns_of_allBeq (fun v hv w => ih v hv) h
    | _ => cases h
  | vector xs ih =>
    cases w with
    | vector ys => exact allZeroSigns_of_allBeq (fun v hv w => ih v hv) h
    | _ => cases h
  | other v hlist hvector =>
    cases v with
    | list items => exact absurd rfl (hlist items)
    | vector items => exact absurd rfl (hvector items)
    | float x =>
      cases w with
      | float y => exact Double.zeroSigns_of_beq h
      | _ => cases h
    | _ =>
      cases w <;> first
        | cases h; done
        | exact ⟨rfl, fun _ => rfl, fun _ => h⟩

end Value

/-! ## Evaluation of a literal -/

namespace Level

/-- The entry of a vector literal for an item and its value. -/
def literalEntry (item v : Value) : Value := if item == v then item else v

variable {item v : Value} {items vals : List Value}

theorem refresh_append (before : List Value) (item : Value) (items : List Value) (v : Value) :
    refresh (before ++ item :: items) before.length v =
      .ok (before ++ literalEntry item v :: items) := by
  simp only [refresh, literalEntry, List.getElem?_append_right (Nat.le_refl _), Nat.sub_self,
    List.getElem?_cons_zero, Option.any_some]
  split
  · rfl
  · simp [Collection.assoc?, Collection.items]

/-- Refreshing the items of a literal one after the other, from those after `before` on. -/
theorem foldlM_refresh (lv : Level Run) (env : Env) {exprs : List Expr} (before : List Value)
    (h : exprs.length = items.length) :
    (exprs.zipIdx before.length).foldlM (fun items (e, index) => do
        ofExcept (refresh items index (← lv.eval env e))) (before ++ items) =
      (do
        let vals ← exprs.mapM (lv.eval env)
        pure (before ++ List.zipWith literalEntry items vals) : Run (List Value)) := by
  induction exprs generalizing before items with
  | nil =>
    cases items with
    | nil => rfl
    | cons item items => cases h
  | cons e exprs ih =>
    cases items with
    | nil => cases h
    | cons item items =>
      -- The entry just made joins those before the rest.
      have hrest (v : Value) := ih (before ++ [literalEntry item v]) (Nat.succ.inj h)
      simp only [List.length_append, List.length_singleton, List.append_assoc,
        List.singleton_append] at hrest
      rw [List.zipIdx_cons, List.foldlM_cons, List.mapM_cons]
      simp only [refresh_append, ofExcept, bind_assoc, pure_bind, List.zipWith_cons_cons]
      exact congrArg (lv.eval env e >>= ·) (funext hrest)

/-- A literal is evaluated as its items are, in order. -/
theorem evalNode_vector (lv : Level Run) (env : Env) {exprs : List Expr}
    (h : exprs.length = items.length) :
    lv.evalNode env (.vector items exprs) = (do
      let vals ← exprs.mapM (lv.eval env)
      pure (.vector (List.zipWith literalEntry items vals))) := by
  have hfold := foldlM_refresh lv env [] h
  rw [evalNode]
  refine (congrArg (· >>= _) hfold).trans ?_
  simp only [bind_assoc, pure_bind, List.nil_append]

/-- An entry is identical to the value, unless the item stands for it with a zero of the other
sign. -/
theorem identical_literalEntry_iff : (literalEntry item v).identical v = true ↔
    ¬ ((item == v) = true ∧ item.zeroSigns ≠ v.zeroSigns) := by
  unfold literalEntry
  cases hbeq : item == v with
  | true =>
    rw [if_pos rfl, (Value.signsDecide_of_beq hbeq).2]
    simp
  | false => simp [Value.identical_refl]

theorem literalEntry_of_not_identical (h : (literalEntry item v).identical v = false) :
    (item == v) = true ∧ literalEntry item v = item := by
  unfold literalEntry at h ⊢
  split at h
  · exact ⟨‹_›, if_pos ‹_›⟩
  · rw [v.identical_refl] at h
    cases h

theorem literalEntry_of_beq (h : item.beq (literalEntry item v) = true) :
    literalEntry item v = item := by
  unfold literalEntry at h ⊢
  split at h
  · rw [if_pos ‹_›]
  · exact absurd h ‹_›

/-- Entries that equal their items are the items themselves. -/
theorem zipWith_literalEntry_of_allBeq (hlength : vals.length = items.length)
    (h : Value.allBeq items (List.zipWith literalEntry items vals) = true) :
    List.zipWith literalEntry items vals = items := by
  induction items generalizing vals with
  | nil => rfl
  | cons item items ih =>
    cases vals with
    | nil => cases hlength
    | cons v vals =>
      rw [List.zipWith_cons_cons, Value.allBeq, Bool.and_eq_true] at h
      rw [List.zipWith_cons_cons, literalEntry_of_beq h.1, ih (Nat.succ.inj hlength) h.2]

end Level

/-! ## Analysis of the items -/

/-- Whether a form is a call, of a special form, a macro or a function. -/
def Value.isCall : Value → Bool
  | .list (_ :: _) => true
  | _ => false

/-- What analysis makes of a form that is no call. -/
inductive Expr.Direct : Value → Expr → Prop
  | const (v : Value) : Direct v (.const v)
  | resolve (symbol : Symbol) : Direct (.symbol symbol) (.resolve symbol)
  | vector {items : List Value} {exprs : List Expr} (h : exprs.length = items.length) :
    Direct (.vector items) (.vector items exprs)

namespace Analyzer

variable {a : Analyzer} {host : Host} {limit left : Nat} {env : Env} {s t : Store} {e : Expr}
  {form : Value}

/-- A form that is no call is analyzed as it stands. -/
theorem analyze_of_not_call (hform : form.isCall = false) :
    (a.analyze host limit (left + 1) env form : Run Expr) s =
      (a.analyzeForm (fun _ => pure) (a.analyze host limit left) env form : Run Expr) s := by
  have hmacro : (Level.macroOf env form : Run _) s = .ok none s := by
    cases form with
    | list items =>
      cases items with
      | nil => rfl
      | cons head args => cases hform
    | _ => rfl
  rw [analyze_succ]
  unfold analyzeForm
  split
  · rfl
  · exact Run.bind_of_ok (Level.expandLoop_of_none (Level.expandOnce_eq_none_iff.2 ⟨rfl, hmacro⟩))

theorem analyze_vector {items : List Value} (hitems : items ≠ [])
    (h : (a.analyze host limit left env (.vector items) : Run Expr) s = .ok e t) :
    ∃ exprs, (items.mapM (a.analyze host limit (left - 1) env) : Run (List Expr)) s = .ok exprs t ∧
      e = .vector items exprs := by
  cases left with
  | zero => cases h
  | succ left =>
    rw [analyze_of_not_call rfl] at h
    cases items with
    | nil => exact absurd rfl hitems
    | cons item items =>
      obtain ⟨exprs, s', hexprs, h⟩ := Run.bind_eq_ok (x := (item :: items).mapM _) h
      cases h
      exact ⟨exprs, hexprs, rfl⟩

theorem direct_of_analyze (hform : form.isCall = false)
    (h : (a.analyze host limit left env form : Run Expr) s = .ok e t) : Expr.Direct form e := by
  cases left with
  | zero => cases h
  | succ left =>
    have hstands := h
    rw [analyze_of_not_call hform] at hstands
    cases form with
    | list items =>
      cases items with
      | nil =>
        cases hstands
        exact .const _
      | cons head args => cases hform
    | vector items =>
      cases items with
      | nil =>
        cases hstands
        exact .const _
      | cons item items =>
        obtain ⟨exprs, hexprs, rfl⟩ := analyze_vector (List.cons_ne_nil _ _) h
        exact .vector (Run.mapM_eq_ok hexprs).length_eq.symm
    | symbol symbol =>
      cases hstands
      exact .resolve symbol
    | _ =>
      cases hstands
      exact .const _

end Analyzer

/-- A form that is no call is identical to its value as soon as it equals it. -/
theorem Expr.Direct.identical_of_beq {item v : Value} {e : Expr} (hdirect : Direct item e)
    {host : Host} {limit left : Nat} {env : Env} {s t : Store}
    (hv : (eval host limit left env e : Run Value) s = .ok v t) (h : item.beq v = true) :
    item.identical v = true := by
  cases left with
  | zero => cases hv
  | succ left =>
    cases hdirect with
    | const =>
      cases hv
      exact item.identical_refl
    | resolve symbol =>
      cases v with
      | symbol symbol' => exact h
      | _ => cases h
    | @vector items exprs hlength =>
      rw [eval_succ, Level.evalNode_vector _ _ hlength] at hv
      obtain ⟨vals, s', hvals, hv⟩ := Run.bind_eq_ok hv
      cases hv
      -- The nested literal has already kept the items that equal their values.
      have hcount := (Run.mapM_eq_ok hvals).length_eq.symm.trans hlength
      rw [Level.zipWith_literalEntry_of_allBeq hcount h]
      exact (Value.vector items).identical_refl

namespace Analyzer

/-- A vector literal is evaluated as its items are, in order, with the same error and the same
stores. An entry is identical to the value of its item, unless the item is a call, equals the value
and has a zero of the other sign: then the entry is the item as it was read. -/
theorem vector_literal_entries (a : Analyzer) (host : Host) (limit left : Nat) (env : Env)
    {items : List Value} (hitems : items ≠ []) {s t : Store} {e : Expr}
    (h : (a.analyze host limit left env (.vector items) : Run Expr) s = .ok e t) :
    ∃ exprs, (items.mapM (a.analyze host limit (left - 1) env) : Run (List Expr)) s = .ok exprs t ∧
      e = .vector items exprs ∧
      ∀ (host' : Host) (limit' left' : Nat) (env' : Env) (s' : Store),
        let literal : Run Value := eval host' limit' (left' + 1) env' e
        let plain : Run (List Value) := exprs.mapM (eval host' limit' left' env')
        (∀ err t', plain s' = .error err t' → literal s' = .error err t') ∧
        ∀ vals t', plain s' = .ok vals t' → ∃ entries,
          literal s' = .ok (.vector entries) t' ∧
          vals.length = items.length ∧ entries.length = items.length ∧
          ∀ (i : Nat) (item v entry : Value),
            items[i]? = some item → vals[i]? = some v → entries[i]? = some entry →
            (entry.identical v = true ↔ ¬ ((item == v) = true ∧ item.zeroSigns ≠ v.zeroSigns)) ∧
            (entry.identical v = false → entry = item ∧ item.isCall = true) := by
  obtain ⟨exprs, hexprs, rfl⟩ := analyze_vector hitems h
  refine ⟨exprs, hexprs, rfl, fun host' limit' left' env' s' => ?_⟩
  intro literal plain
  have hanalyzed := Run.mapM_eq_ok hexprs
  have hliteral : literal = plain >>= fun vals =>
      pure (.vector (List.zipWith Level.literalEntry items vals)) :=
    Level.evalNode_vector _ _ hanalyzed.length_eq.symm
  refine ⟨fun err t' herr => ?_, fun vals t' hvals => ?_⟩
  · rw [hliteral]
    exact Run.bind_of_error herr
  · have hevaluated := Run.mapM_eq_ok hvals
    have hlength : vals.length = items.length :=
      hevaluated.length_eq.symm.trans hanalyzed.length_eq.symm
    refine ⟨List.zipWith Level.literalEntry items vals, ?_, hlength, by simp [hlength], ?_⟩
    · rw [hliteral]
      exact Run.bind_of_ok hvals
    · intro i item v entry hitem hv hentry
      rw [List.getElem?_zipWith, hitem, hv] at hentry
      cases hentry
      refine ⟨Level.identical_literalEntry_iff, fun hdiffers => ?_⟩
      obtain ⟨hbeq, hkept⟩ := Level.literalEntry_of_not_identical hdiffers
      rw [hkept] at hdiffers ⊢
      refine ⟨rfl, ?_⟩
      by_contra hcall
      obtain ⟨hi, rfl⟩ := List.getElem?_eq_some_iff.1 hitem
      obtain ⟨hi', rfl⟩ := List.getElem?_eq_some_iff.1 hv
      have he : i < exprs.length := hanalyzed.length_eq ▸ hi
      obtain ⟨_, _, hform⟩ := hanalyzed.get hi he
      obtain ⟨_, _, hval⟩ := hevaluated.get he hi'
      have hdirect := direct_of_analyze (Bool.eq_false_iff.2 hcall) hform
      have hsame := hdirect.identical_of_beq hval hbeq
      exact absurd (hsame.symm.trans hdiffers) (by decide)

/-- The call `(f x)` of a global function. -/
def callOf (x : Double) : Value := .list [.symbol ⟨none, "f"⟩, .float x]

/-- The expression of the call. -/
def callExpr (x : Double) : Expr := .invoke "f" (.resolve ⟨none, "f"⟩) [.const (.float x)]

/-- A store in which `f` answers every call with the form `(f y)`. -/
def answering (y : Double) : Store :=
  { roots := [⟨"user", [("user", [("f", .fn
      (Closure.instantiate 0 none none false [⟨[⟨none, "x"⟩], false, .quote (callOf y)⟩]
        (.root 0)))])]⟩] }

theorem mapM_callExpr (host : Host) (limit left : Nat) (x y : Double) :
    ([callExpr x].mapM (eval host limit (left + 2) (.root 0)) : Run (List Value)) (answering y) =
      .ok [callOf y] (answering y) := by
  have hcall : (eval host limit (left + 2) (.root 0) (callExpr x) : Run Value) (answering y) =
      .ok (callOf y) (answering y) := by
    change (Level.apply _ (.fn _) _ : Run Value) (answering y) = _
    rw [Level.apply_fn]
    rfl
  rw [List.mapM_cons, Run.bind_of_ok hcall]
  rfl

/-- A call that answers itself stands for its value, which is identical to it. -/
theorem vector_literal_entries_call :
    let x : Double := ⟨0x3FF8000000000000⟩
    ∃ entry, (eval standardHost 9 4 (.root 0) (.vector [callOf x] [callExpr x]) : Run Value)
        (answering x) = .ok (.vector [entry]) (answering x) ∧
      entry.identical (callOf x) = true := by
  intro x
  have hrun : (standard.analyze standardHost 9 4 (.root 0) (.vector [callOf x]) : Run Expr)
      (answering x) = .ok (.vector [callOf x] [callExpr x]) (answering x) := by cbv
  obtain ⟨exprs, -, he, hevals⟩ :=
    vector_literal_entries standard standardHost 9 4 (.root 0) (List.cons_ne_nil _ _) hrun
  cases he
  obtain ⟨entries, hliteral, -, hlength, hentries⟩ :=
    (hevals standardHost 9 3 (.root 0) (answering x)).2 _ _ (mapM_callExpr standardHost 9 1 x x)
  obtain ⟨entry, rfl⟩ := List.length_eq_one_iff.1 hlength
  exact ⟨entry, hliteral, (hentries 0 _ _ _ rfl rfl rfl).1.2 fun h => h.2 rfl⟩

/-- A call `(f 0.0)` that answers `(f -0.0)` is left in the literal in place of its value. -/
theorem vector_literal_keeps_call :
    let x : Double := ⟨0⟩
    let y : Double := ⟨0x8000000000000000⟩
    (standard.analyze standardHost 9 4 (.root 0) (.vector [callOf x]) : Run Expr) (answering y) =
        .ok (.vector [callOf x] [callExpr x]) (answering y) ∧
      ([callExpr x].mapM (eval standardHost 9 3 (.root 0)) : Run (List Value)) (answering y) =
        .ok [callOf y] (answering y) ∧
      (eval standardHost 9 4 (.root 0) (.vector [callOf x] [callExpr x]) : Run Value)
        (answering y) = .ok (.vector [callOf x]) (answering y) ∧
      (callOf x).identical (callOf y) = false := by
  intro x y
  have hplain := mapM_callExpr standardHost 9 1 x y
  have hentry : Level.literalEntry (callOf x) (callOf y) = callOf x := if_pos (by decide)
  refine ⟨by cbv, hplain, ?_, by decide⟩
  rw [eval_succ, Level.evalNode_vector _ _ rfl, Run.bind_of_ok hplain, List.zipWith_cons_cons,
    hentry]
  rfl

end Analyzer

end LispCore
