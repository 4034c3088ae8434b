import Mathlib.Data.String.Basic
import LispCore.Proofs.Equality
import LispCore.Value.Order

/-!
# The order of values

`Below` is the strict order that lies behind comparison: integers, floats other than NaN, strings,
characters and booleans, each type by itself. Together with equality it settles every comparison:
`Verdict a b r` says which result `r` these two relations leave, and comparing gives exactly that
(`Value.compare_eq_iff`). The laws of comparison are those of the two relations.
-/

namespace LispCore.Value

/-- The strict order of values of one type. -/
inductive Below : Value → Value → Prop where
  | int {m n : Int64} : m.toInt < n.toInt → Below (.int m) (.int n)
  | float {x y : Double} : x.isNaN = false → y.isNaN = false → x.key < y.key →
    Below (.float x) (.float y)
  | str {s t : String} : s < t → Below (.str s) (.str t)
  | char {c d : Char} : c.toNat < d.toNat → Below (.char c) (.char d)
  | bool {p q : Bool} : p.toNat < q.toNat → Below (.bool p) (.bool q)

namespace Below

variable {a b c a' b' : Value}

theorem trans (hab : Below a b) (hbc : Below b c) : Below a c := by
  cases hab with
  | int hab => cases hbc with | int hbc => exact .int (hab.trans hbc)
  | float hx _ hab => cases hbc with | float _ hz hbc => exact .float hx hz (hab.trans hbc)
  | str hab => cases hbc with | str hbc => exact .str (hab.trans hbc)
  | char hab => cases hbc with | char hbc => exact .char (hab.trans hbc)
  | bool hab => cases hbc with | bool hbc => exact .bool (hab.trans hbc)

theorem irrefl (a : Value) : ¬ Below a a := by
  rintro (h | ⟨-, -, h⟩ | h | h | h)
  all_goals exact lt_irrefl _ h

theorem asymm (hab : Below a b) : ¬ Below b a := fun hba => irrefl a (hab.trans hba)

/-- Only values that equal themselves are in the order. -/
theorem beq_self (h : Below a b) : a.beq a = true ∧ b.beq b = true := by
  rw [beq_self_iff, beq_self_iff]
  cases h with
  | float hx hy _ => exact ⟨(throughout_atom rfl).2 hx, (throughout_atom rfl).2 hy⟩
  | _ => exact ⟨(throughout_atom rfl).2 trivial, (throughout_atom rfl).2 trivial⟩

/-- Equal values have the same place in the order. -/
theorem of_beq (h : Below a b) (ha : a.beq a' = true) (hb : b.beq b' = true) : Below a' b' := by
  cases h with
  | float hx hy hlt =>
    cases a' with
    | float x' =>
      cases b' with
      | float y' =>
        obtain ⟨-, hkeyx⟩ := Double.beq_iff_key.1 ha
        obtain ⟨-, hkeyy⟩ := Double.beq_iff_key.1 hb
        rw [hkeyx, hkeyy] at hlt
        rw [Double.isNaN_of_key hkeyx] at hx
        rw [Double.isNaN_of_key hkeyy] at hy
        exact .float hx hy hlt
      | _ => cases hb
    | _ => cases ha
  | _ =>
    -- all that equality does not see are the signs of zeros
    have hsame := eq_of_beq ha ((throughout_atom rfl).2 trivial)
    have hsame' := eq_of_beq hb ((throughout_atom rfl).2 trivial)
    subst hsame hsame'
    constructor
    assumption

theorem not_beq (h : Below a b) : a.beq b = false := by
  by_contra hbeq
  exact irrefl b (h.of_beq (Bool.eq_true_of_not_eq_false hbeq) h.beq_self.2)

end Below

/-! ## Verdicts -/

/-- What the order and equality leave as the result of a comparison. -/
inductive Verdict (a b : Value) : Except Error Ordering → Prop where
  | lt : Below a b → Verdict a b (.ok .lt)
  | eq : a.beq b = true → Verdict a b (.ok .eq)
  | gt : Below b a → Verdict a b (.ok .gt)
  | none : ¬ Below a b → a.beq b = false → ¬ Below b a →
    Verdict a b (.error (.incomparable a.typeName b.typeName))

variable {a b c : Value}

/-- Comparison by a key that the order and equality follow. -/
theorem Verdict.of_key {α : Type} [LinearOrder α] (k l : α) (hlt : k < l → Below a b)
    (heq : k = l → a.beq b = true) (hgt : l < k → Below b a) :
    Verdict a b (.ok (Ord.compare k l)) := by
  rcases lt_trichotomy k l with h | h | h
  · rw [compare_lt_iff_lt.2 h]
    exact .lt (hlt h)
  · rw [compare_eq_iff_eq.2 h]
    exact .eq (heq h)
  · rw [compare_gt_iff_gt.2 h]
    exact .gt (hgt h)

theorem compare_verdict (a b : Value) : Verdict a b (a.compare b) := by
  unfold compare
  split
  · next m n =>
    exact .of_key _ _ .int (fun h => beq_iff_eq.2 (Int64.toInt_inj.1 h)) .int
  · next x y =>
    by_cases hnan : (x.isNaN || y.isNaN) = true
    · have hnumbers (hx : x.isNaN = false) (hy : y.isNaN = false) : False := by
        rw [hx, hy] at hnan
        cases hnan
      simp only [Double.compare?, hnan, if_true]
      refine .none (fun h => ?_) (Bool.eq_false_iff.2 fun h => ?_) fun h => ?_
      · cases h with | float hx hy _ => exact hnumbers hx hy
      · obtain ⟨hx, hkey⟩ := Double.beq_iff_key.1 h
        exact hnumbers hx (Double.isNaN_of_key hkey ▸ hx)
      · cases h with | float hy hx _ => exact hnumbers hx hy
    · obtain ⟨hx, hy⟩ := Bool.or_eq_false_iff.1 (Bool.eq_false_iff.2 hnan)
      simp only [Double.compare?, hnan]
      exact .of_key _ _ (.float hx hy) (fun h => Double.beq_iff_key.2 ⟨hx, h⟩) (.float hy hx)
  · next s t => exact .of_key _ _ .str (fun h => beq_iff_eq.2 h) .str
  · next c d => exact .of_key _ _ .char (fun h => beq_iff_eq.2 (Char.toNat_inj.1 h)) .char
  · next p q =>
    have heq : ∀ p q : Bool, p.toNat = q.toNat → p = q := by decide
    exact .of_key _ _ .bool (fun h => beq_iff_eq.2 (heq p q h)) .bool
  · next hint hfloat hstr hchar hbool =>
    -- only the types singled out before have an order
    have hnone : ¬ (Below a b ∨ Below b a) := by
      rintro (h | h) <;>
      cases h with
      | int => exact hint _ _ rfl rfl
      | float => exact hfloat _ _ rfl rfl
      | str => exact hstr _ _ rfl rfl
      | char => exact hchar _ _ rfl rfl
      | bool => exact hbool _ _ rfl rfl
    obtain ⟨hlt, hgt⟩ := not_or.1 hnone
    split
    · next h => exact .eq h
    · next h => exact .none hlt (Bool.eq_false_iff.2 h) hgt

namespace Verdict

variable {r r' : Except Error Ordering}

theorem unique (h : Verdict a b r) (h' : Verdict a b r') : r = r' := by
  have hlt : Below a b → a.beq b = false := Below.not_beq
  have hgt : Below b a → a.beq b = false := fun h => beq_comm a b ▸ h.not_beq
  have hasymm : Below a b → ¬ Below b a := Below.asymm
  cases h <;> cases h' <;> simp_all

theorem swap {o : Ordering} (h : Verdict a b (.ok o)) : Verdict b a (.ok o.swap) := by
  cases h with
  | lt h => exact .gt h
  | eq h => exact .eq (beq_symm h)
  | gt h => exact .lt h

theorem swap_error {l r : String} (h : Verdict a b (.error (.incomparable l r))) :
    Verdict b a (.error (.incomparable r l)) := by
  cases h with
  | none hlt hbeq hgt => exact .none hgt (beq_comm b a ▸ hbeq) hlt

theorem of_beq {o : Ordering} (hab : a.beq b = true) (h : Verdict b c (.ok o)) :
    Verdict a c (.ok o) := by
  cases h with
  | lt h => exact .lt (h.of_beq (beq_symm hab) h.beq_self.2)
  | eq h => exact .eq (beq_trans hab h)
  | gt h => exact .gt (h.of_beq h.beq_self.1 (beq_symm hab))

end Verdict

theorem compare_eq_iff {r : Except Error Ordering} : a.compare b = r ↔ Verdict a b r :=
  ⟨fun h => h ▸ compare_verdict a b, fun h => (compare_verdict a b).unique h⟩

/-- Comparison is a partial order whose equality is that of values: with the operands swapped it
gives the reverse result, or it fails and names the types the other way round; it finds exactly
equal values equal; it is transitive, and it does not tell equal values apart. -/
theorem comparison_laws (a b c : Value) :
    (∀ o, a.compare b = .ok o ↔ b.compare a = .ok o.swap) ∧
    (∀ l r, a.compare b = .error (.incomparable l r) ↔ b.compare a = .error (.incomparable r l)) ∧
    (∀ e, a.compare b = .error e → e = .incomparable a.typeName b.typeName) ∧
    (a.compare b = .ok .eq ↔ (a == b) = true) ∧
    (a.compare b = .ok .lt → b.compare c = .ok .lt → a.compare c = .ok .lt) ∧
    (∀ o, (a == b) = true → b.compare c = .ok o → a.compare c = .ok o) := by
  simp only [compare_eq_iff]
  refine ⟨fun o => ⟨.swap, fun h => ?_⟩, fun l r => ⟨.swap_error, .swap_error⟩, fun e h => ?_,
    ⟨fun h => ?_, .eq⟩, fun hab hbc => ?_, fun o => .of_beq⟩
  · rw [← o.swap_swap]
    exact h.swap
  · cases h with | none => rfl
  · cases h with | eq h => exact h
  · cases hab with
    | lt hab =>
      cases hbc with
      | lt hbc => exact .lt (hab.trans hbc)

/-- The two zeros are one place in the order, below one and a half, which is below infinity. -/
theorem comparison_laws_zeros :
    let zero (negative : Bool) : Value := .float (.ofMagnitude negative 0)
    let half : Value := .float ⟨0x3FF8000000000000⟩
    let infinite : Value := .float (.infinity false)
    (zero true == zero false) = true ∧ (zero false).compare half = .ok .lt ∧
      (zero true).compare half = .ok .lt ∧ half.compare infinite = .ok .lt ∧
      (zero true).compare infinite = .ok .lt ∧ infinite.compare (zero true) = .ok .gt := by
  intro zero half infinite
  have hzeros : (zero true == zero false) = true := by decide
  have hhalf : (zero false).compare half = .ok .lt := rfl
  have hinfinite : half.compare infinite = .ok .lt := rfl
  obtain ⟨-, -, -, -, -, hcongr⟩ := comparison_laws (zero true) (zero false) half
  have hbelow := hcongr .lt hzeros hhalf
  obtain ⟨-, -, -, -, htrans, -⟩ := comparison_laws (zero true) half infinite
  have hfar := htrans hbelow hinfinite
  have hback := ((comparison_laws (zero true) infinite infinite).1 .lt).1 hfar
  exact ⟨hzeros, hhalf, hbelow, hinfinite, hfar, hback⟩

end LispCore.Value
