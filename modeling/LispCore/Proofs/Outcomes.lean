import Mathlib.Data.List.Forall2
import LispCore.Proofs.Agreement

/-!
# Outcomes of runs

What the outcome of a sequence of runs tells of its parts, and the other way round. A run that
`Succeeds` or `Fails` on a class of stores does so from every store of the class, and ends in a
store of the class; both are passed on by sequencing and by `mapM`. So is `SucceedsIff`, for runs
that leave a store alone and succeed on a condition.

A run that `Preserves` a class of stores may end either way. Evaluation preserves what every request
preserves (`eval_preserves`).
-/

namespace LispCore.Run

variable {α β : Type} {s t : Store} {I : Store → Prop}

theorem bind_eq_ok {x : Run α} {f : α → Run β} {b : β} (h : (x >>= f) s = .ok b t) :
    ∃ a s', x s = .ok a s' ∧ f a s' = .ok b t := by
  cases hx : x s with
  | ok a s' =>
    rw [bind_of_ok hx] at h
    exact ⟨a, s', rfl, h⟩
  | error e s' =>
    rw [bind_of_error hx] at h
    cases h

/-- The answers of a successful `mapM` are answers to the items, one for each in order. -/
theorem mapM_eq_ok {f : β → Run α} {xs : List β} {ys : List α} (h : xs.mapM f s = .ok ys t) :
    List.Forall₂ (fun x y => ∃ s t, f x s = .ok y t) xs ys := by
  induction xs generalizing s ys with
  | nil =>
    cases h
    exact .nil
  | cons x xs ih =>
    rw [List.mapM_cons] at h
    obtain ⟨y, s', hy, h⟩ := bind_eq_ok h
    obtain ⟨ys', s'', hys, h⟩ := bind_eq_ok h
    cases h
    exact .cons ⟨s, s', hy⟩ (ih hys)

/-- From every store of `I` the run succeeds with an answer that `P` admits, and it ends in `I`. -/
def Succeeds (I : Store → Prop) (x : Run α) (P : α → Prop) : Prop :=
  ∀ s, I s → ∃ a t, x s = .ok a t ∧ I t ∧ P a

/-- From every store of `I` the run fails with an error that `E` admits, and it ends in `I`. -/
def Fails (I : Store → Prop) (x : Run α) (E : Error → Prop) : Prop :=
  ∀ s, I s → ∃ e t, x s = .error e t ∧ I t ∧ E e

namespace Succeeds

variable {x : Run α} {P : α → Prop} {Q : β → Prop}

theorem pure {a : α} (ha : P a) : Succeeds I (pure a) P := fun s hs => ⟨a, s, rfl, hs, ha⟩

theorem mono {P' : α → Prop} (hx : x.Succeeds I P) (h : ∀ a, P a → P' a) : x.Succeeds I P' := by
  intro s hs
  obtain ⟨a, t, hxs, ht, ha⟩ := hx s hs
  exact ⟨a, t, hxs, ht, h a ha⟩

/-- The answer is one that the run has been seen to give. -/
theorem witnessed (hx : x.Succeeds I P) : x.Succeeds I fun a => ∃ s t, x s = .ok a t := by
  intro s hs
  obtain ⟨a, t, hxs, ht, -⟩ := hx s hs
  exact ⟨a, t, hxs, ht, s, t, hxs⟩

theorem bind {f : α → Run β} (hx : x.Succeeds I P) (hf : ∀ a, P a → (f a).Succeeds I Q) :
    (x >>= f).Succeeds I Q := by
  intro s hs
  obtain ⟨a, s', hxs, hs', ha⟩ := hx s hs
  rw [bind_of_ok hxs]
  exact hf a ha s' hs'

theorem bind_fails {f : α → Run β} {E : Error → Prop} (hx : x.Succeeds I P)
    (hf : ∀ a, P a → (f a).Fails I E) : (x >>= f).Fails I E := by
  intro s hs
  obtain ⟨a, s', hxs, hs', ha⟩ := hx s hs
  rw [bind_of_ok hxs]
  exact hf a ha s' hs'

/-- What is known of each answer may be told by an item of another list in the same place. -/
theorem mapM {γ : Type} {f : β → Run α} {xs : List β} {cs : List γ} {R : γ → α → Prop}
    (h : List.Forall₂ (fun x c => (f x).Succeeds I (R c)) xs cs) :
    (xs.mapM f).Succeeds I (List.Forall₂ R cs) := by
  induction h with
  | nil => exact .pure .nil
  | cons hx _ ih =>
    rw [List.mapM_cons]
    exact hx.bind fun y hy => ih.bind fun ys hys => .pure (.cons hy hys)

end Succeeds

namespace Fails

variable {E : Error → Prop}

theorem fail {e : Error} (he : E e) : Fails I (fail e : Run α) E := fun s hs => ⟨e, s, rfl, hs, he⟩

theorem bind {x : Run α} (hx : x.Fails I E) (f : α → Run β) : (x >>= f).Fails I E := by
  intro s hs
  obtain ⟨e, t, hxs, ht, he⟩ := hx s hs
  exact ⟨e, t, bind_of_error hxs, ht, he⟩

/-- What comes before the first failure succeeds and does not leave the class of stores. -/
theorem mapM {f : β → Run α} {xs : List β}
    (h : ∀ x ∈ xs, (f x).Succeeds I (fun _ => True) ∨ (f x).Fails I E)
    (hfails : ∃ x ∈ xs, (f x).Fails I E) : (xs.mapM f).Fails I E := by
  induction xs with
  | nil =>
    obtain ⟨x, hx, -⟩ := hfails
    cases hx
  | cons x xs ih =>
    obtain ⟨hx, hxs⟩ := List.forall_mem_cons.1 h
    obtain ⟨y, hy, hyfails⟩ := hfails
    rw [List.mapM_cons]
    rcases hx with hsucceeds | hfails
    · rcases List.mem_cons.1 hy with rfl | hy
      · exact hyfails.bind _
      · exact hsucceeds.bind_fails fun _ _ => (ih hxs ⟨y, hy, hyfails⟩).bind _
    · exact hfails.bind _

end Fails

/-! ## Success on a condition -/

/-- The run succeeds if `p` holds, with an answer that `Q` admits, and fails with `e` if not. Both
times it leaves the store as it is. -/
def SucceedsIff (p : Prop) (e : Error) (s : Store) (x : Run α) (Q : α → Prop) : Prop :=
  (p → ∃ a, x s = .ok a s ∧ Q a) ∧ (¬ p → x s = .error e s)

namespace SucceedsIff

variable {p q : Prop} {e : Error} {x : Run α} {P : α → Prop} {Q : β → Prop}

theorem pure {a : α} (hp : p) (ha : P a) : SucceedsIff p e s (pure a) P :=
  ⟨fun _ => ⟨a, rfl, ha⟩, fun hnot => absurd hp hnot⟩

theorem fail (hp : ¬ p) : SucceedsIff p e s (fail e) P :=
  ⟨fun h => absurd h hp, fun _ => rfl⟩

theorem congr {y : Run α} (h : SucceedsIff p e s x P) (hp : p ↔ q) (hx : y s = x s) :
    SucceedsIff q e s y P := by
  unfold SucceedsIff
  rw [hx, ← hp]
  exact h

theorem mono {P' : α → Prop} (h : SucceedsIff p e s x P) (hP : ∀ a, P a → P' a) :
    SucceedsIff p e s x P' := by
  refine ⟨fun hp => ?_, h.2⟩
  obtain ⟨a, hok, ha⟩ := h.1 hp
  exact ⟨a, hok, hP a ha⟩

/-- A sequence succeeds if both parts do. -/
theorem bind {f : α → Run β} (hx : SucceedsIff p e s x P)
    (hf : ∀ a, P a → SucceedsIff q e s (f a) Q) : SucceedsIff (p ∧ q) e s (x >>= f) Q := by
  by_cases hp : p
  · obtain ⟨a, hok, ha⟩ := hx.1 hp
    exact (hf a ha).congr (and_iff_right hp).symm (bind_of_ok hok)
  · exact ⟨fun h => absurd h.1 hp, fun _ => bind_of_error (hx.2 hp)⟩

theorem map {f : α → β} (hx : SucceedsIff p e s x P) (hf : ∀ a, P a → Q (f a)) :
    SucceedsIff p e s (x >>= fun a => Pure.pure (f a)) Q :=
  (hx.bind (q := True) fun a ha => .pure trivial (hf a ha)).congr (and_iff_left trivial) rfl

/-- The conditions and what is known of the answers may be told by the items of another list in the
same places. -/
theorem mapM {γ : Type} {f : β → Run α} {xs : List β} {cs : List γ} {p : γ → Prop}
    {R : γ → α → Prop}
    (h : List.Forall₂ (fun x c => SucceedsIff (p c) e s (f x) (R c)) xs cs) :
    SucceedsIff (∀ c ∈ cs, p c) e s (xs.mapM f) (List.Forall₂ R cs) := by
  induction h with
  | nil => exact .pure (List.forall_mem_nil p) .nil
  | cons hx _ ih =>
    refine (hx.bind fun y hy => ih.map fun ys hys => .cons hy hys).congr ?_
      (congrFun (List.mapM_cons ..) s)
    exact List.forall_mem_cons.symm

/-- Each item has its own condition. -/
theorem mapM_self {f : β → Run α} {xs : List β} {p : β → Prop}
    (h : ∀ x ∈ xs, SucceedsIff (p x) e s (f x) fun _ => True) :
    SucceedsIff (∀ x ∈ xs, p x) e s (xs.mapM f) fun _ => True :=
  (mapM (R := fun _ _ => True) (List.forall₂_same.2 h)).mono fun _ _ => trivial

end SucceedsIff

/-! ## Preserved classes of stores -/

/-- The run ends in a store of `I` if it starts in one, also if it fails. -/
def Preserves (I : Store → Prop) (x : Run α) : Prop := ∀ s, I s → I (x.final s)

namespace Preserves

variable {x : Run α}

theorem pure (a : α) : Preserves I (pure a) := fun _ hs => hs

theorem bind {f : α → Run β} (hx : x.Preserves I) (hf : ∀ a, (f a).Preserves I) :
    (x >>= f).Preserves I := by
  intro s hs
  have hfinal := hx s hs
  cases h : x s with
  | ok a t =>
    rw [final_of_ok h] at hfinal
    rw [final_congr (bind_of_ok h)]
    exact hf a t hfinal
  | error e t =>
    have hboth : (x >>= f).final s = x.final s := by
      unfold final
      rw [bind_of_error h, h]
    rw [hboth]
    exact hfinal

theorem request {r : Request} (h : ∀ s, I s → I (s.answer r).2) :
    Preserves I (request r : Run r.Answer) := fun s hs => h s hs

theorem ofExcept (r : Except Error α) : Preserves I (ofExcept r : Run α) := by
  cases r with
  | ok a => exact pure a
  | error e => exact fun _ hs => hs

theorem forM {f : β → Run PUnit} {xs : List β} (h : ∀ x ∈ xs, (f x).Preserves I) :
    (xs.forM f).Preserves I := by
  induction xs with
  | nil => exact pure PUnit.unit
  | cons x xs ih =>
    obtain ⟨hx, hxs⟩ := List.forall_mem_cons.1 h
    exact hx.bind fun _ => ih hxs

/-- One and the same run, which preserves `I`. -/
def agreement (I : Store → Prop) : Agreement Run Run where
  rel x y := x = y ∧ x.Preserves I
  pure a := ⟨rfl, .pure a⟩
  fail _ := ⟨rfl, fun _ hs => hs⟩
  bind hx hf := ⟨by rw [hx.1, funext fun a => (hf a).1], hx.2.bind fun a => (hf a).2⟩

end Preserves

/-- Evaluation reaches the store by requests only. -/
theorem eval_preserves (h : ∀ (r : Request) (s : Store), I s → I (s.answer r).2) (host : Host)
    (limit left : Nat) (env : Env) (e : Expr) :
    (eval host limit left env e : Run Value).Preserves I := by
  have hrequest (r : Request) : (Preserves.agreement I).rel (request r) (request r) :=
    ⟨rfl, .request (h r)⟩
  induction left generalizing env e with
  | zero => exact fun _ hs => hs
  | succ left ih =>
    let lv : Level Run := ⟨host, ⟨limit - left, limit⟩, eval host limit left⟩
    have heval (env : Env) (e : Expr) :
        (Preserves.agreement I).rel (lv.eval env e) (lv.eval env e) := ⟨rfl, ih env e⟩
    have hagree : Level.Agree (Preserves.agreement I) lv lv :=
      ⟨heval, Level.apply_agree heval fun _ _ => .inl rfl, fun _ _ _ => hrequest _⟩
    exact (Level.evalNode_agree (fun r _ => hrequest r) hagree env e).2

end LispCore.Run
