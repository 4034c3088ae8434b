import LispCore.Value.Printer

/-!
# Equality of values

Equality is coarser than identity: it takes the two zeros for one number, and of functions and
foreign objects it sees the identity only. `Value.normal` leaves out what equality does not see. Two
values are equal exactly if they have the same normal form and no NaN occurs in them
(`Value.beq_iff_normal`), so equality has the laws of an equivalence, except that a value in which
a NaN occurs equals nothing.
-/

namespace LispCore

/-! ## Numbers -/

namespace Double

theorem toNat_bits (x : Double) :
    x.bits.toNat = x.magnitude + if x.isNegative then signWeight else 0 := by
  have hbits : x.bits.toNat < 2 * signWeight := x.bits.toNat_lt
  by_cases hsign : signWeight ≤ x.bits.toNat
  · rw [magnitude, isNegative, decide_eq_true hsign, if_pos rfl, Nat.mod_eq_sub_mod hsign,
      Nat.mod_eq_of_lt (by omega)]
    omega
  · rw [magnitude, isNegative, decide_eq_false hsign, if_neg (by decide), Nat.add_zero,
      Nat.mod_eq_of_lt (by omega)]

variable {x y : Double}

theorem eq_iff : x = y ↔ x.magnitude = y.magnitude ∧ x.isNegative = y.isNegative := by
  constructor
  · rintro rfl
    exact ⟨rfl, rfl⟩
  · rintro ⟨hmagnitude, hsign⟩
    have hbits : x.bits.toNat = y.bits.toNat := by
      rw [toNat_bits, toNat_bits, hmagnitude, hsign]
    exact congrArg mk (UInt64.toNat_inj.1 hbits)

/-- Keys of different signs meet only at zero. -/
theorem key_eq_key_iff : x.key = y.key ↔
    x.magnitude = y.magnitude ∧ (x.magnitude = 0 ∨ x.isNegative = y.isNegative) := by
  unfold key
  cases x.isNegative <;> cases y.isNegative <;> simp <;> omega

theorem isNaN_congr (h : x.magnitude = y.magnitude) : x.isNaN = y.isNaN := by
  rw [isNaN, isNaN, h]

theorem isNaN_of_key (h : x.key = y.key) : x.isNaN = y.isNaN :=
  isNaN_congr (key_eq_key_iff.1 h).1

theorem beq_iff_key : x.beq y = true ↔ x.isNaN = false ∧ x.key = y.key := by
  simp only [beq, Bool.and_eq_true, Bool.not_eq_true', beq_iff_eq]
  constructor
  · rintro ⟨⟨hx, -⟩, hkey⟩
    exact ⟨hx, hkey⟩
  · rintro ⟨hx, hkey⟩
    exact ⟨⟨hx, isNaN_of_key hkey ▸ hx⟩, hkey⟩

/-- The number itself, or the positive zero for either zero. -/
def normal (x : Double) : Double := if x.magnitude = 0 then ⟨0⟩ else x

theorem magnitude_normal (x : Double) : x.normal.magnitude = x.magnitude := by
  unfold normal
  split
  · next hzero => rw [hzero]; rfl
  · rfl

theorem normal_eq_normal_iff : x.normal = y.normal ↔ x.key = y.key := by
  have hmagnitude (h : x.normal = y.normal) : x.magnitude = y.magnitude := by
    rw [← magnitude_normal x, h, magnitude_normal]
  rw [key_eq_key_iff]
  by_cases hzero : x.magnitude = 0
  · refine ⟨fun h => ⟨hmagnitude h, .inl hzero⟩, fun ⟨h, _⟩ => ?_⟩
    rw [normal, normal, if_pos hzero, if_pos (h ▸ hzero)]
  · refine ⟨fun h => ⟨hmagnitude h, .inr ?_⟩, fun ⟨h, hsign⟩ => ?_⟩
    · have hzero' : y.magnitude ≠ 0 := hmagnitude h ▸ hzero
      rw [normal, normal, if_neg hzero, if_neg hzero'] at h
      rw [h]
    · rw [normal, normal, if_neg hzero, if_neg (h ▸ hzero)]
      exact eq_iff.2 ⟨h, hsign.resolve_left hzero⟩

end Double

/-! ## What occurs in a value -/

namespace Value

/-- A value occurs in itself and, if it occurs in a member of a list or a vector, in that. -/
inductive Occurs (u : Value) : Value → Prop where
  | self : Occurs u u
  | list {v : Value} {items : List Value} : v ∈ items → Occurs u v → Occurs u (.list items)
  | vector {v : Value} {items : List Value} : v ∈ items → Occurs u v → Occurs u (.vector items)

/-- Whether a property holds of all that occurs in a value. -/
def Throughout (P : Value → Prop) (v : Value) : Prop := ∀ u, Occurs u v → P u

variable {P : Value → Prop} {items : List Value}

theorem throughout_list :
    Throughout P (.list items) ↔ P (.list items) ∧ ∀ v ∈ items, v.Throughout P := by
  constructor
  · exact fun h => ⟨h _ .self, fun v hv u hu => h u (.list hv hu)⟩
  · rintro ⟨hself, hitems⟩ u hu
    cases hu with
    | self => exact hself
    | list hv hu => exact hitems _ hv u hu

theorem throughout_vector :
    Throughout P (.vector items) ↔ P (.vector items) ∧ ∀ v ∈ items, v.Throughout P := by
  constructor
  · exact fun h => ⟨h _ .self, fun v hv u hu => h u (.vector hv hu)⟩
  · rintro ⟨hself, hitems⟩ u hu
    cases hu with
    | self => exact hself
    | vector hv hu => exact hitems _ hv u hu

def isCollection : Value → Bool
  | .list _ => true
  | .vector _ => true
  | _ => false

/-- Nothing occurs in what is no collection but itself. -/
theorem throughout_atom {v : Value} (hv : v.isCollection = false) : v.Throughout P ↔ P v := by
  refine ⟨fun h => h v .self, fun h u hu => ?_⟩
  cases hu with
  | self => exact h
  | list => cases hv
  | vector => cases hv

/-! ## Normal forms -/

/-- A float that equals itself, or no float. -/
def IsNumber : Value → Prop
  | .float x => x.isNaN = false
  | _ => True

mutual

/-- What equality sees of a value. -/
def normal : Value → Value
  | .float x => .float x.normal
  | .list items => .list (allNormal items)
  | .vector items => .vector (allNormal items)
  | .fn f => .fn ⟨f.id, none, none, false, [], none⟩
  | .native f => .native ⟨f.id, "", none⟩
  | .foreign x => .foreign ⟨x.id, .flag false⟩
  | v => v

def allNormal : List Value → List Value
  | [] => []
  | v :: vs => normal v :: allNormal vs

end

theorem allBeq_iff_of {xs : List Value}
    (h : ∀ v ∈ xs, ∀ w, v.beq w = true ↔ v.Throughout IsNumber ∧ v.normal = w.normal)
    (ys : List Value) :
    allBeq xs ys = true ↔ (∀ v ∈ xs, v.Throughout IsNumber) ∧ allNormal xs = allNormal ys := by
  induction xs generalizing ys with
  | nil => cases ys <;> simp [allBeq, allNormal]
  | cons v xs ih =>
    obtain ⟨hv, hxs⟩ := List.forall_mem_cons.1 h
    cases ys with
    | nil => simp [allBeq, allNormal]
    | cons w ys =>
      rw [allBeq, Bool.and_eq_true, hv, ih hxs, List.forall_mem_cons, allNormal, allNormal,
        List.cons.injEq]
      exact and_and_and_comm

/-- Values are equal exactly if they have the same normal form and no NaN occurs in them. -/
theorem beq_iff_normal (v w : Value) :
    v.beq w = true ↔ v.Throughout IsNumber ∧ v.normal = w.normal := by
  induction v using collection_induction generalizing w with
  | list xs ih =>
    rw [throughout_list]
    cases w with
    | list ys => simp [beq, normal, allBeq_iff_of ih, IsNumber]
    | _ => simp [beq, normal]
  | vector xs ih =>
    rw [throughout_vector]
    cases w with
    | vector ys => simp [beq, normal, allBeq_iff_of ih, IsNumber]
    | _ => simp [beq, normal]
  | other v hlist hvector =>
    cases v with
    | list items => exact absurd rfl (hlist items)
    | vector items => exact absurd rfl (hvector items)
    | float x =>
      rw [throughout_atom rfl]
      cases w with
      | float y =>
        rw [normal, normal, float.injEq, Double.normal_eq_normal_iff]
        exact Double.beq_iff_key
      | _ => simp [beq, normal]
    | _ =>
      rw [throughout_atom rfl]
      cases w <;> simp [beq, normal, IsNumber]

theorem allNormal_eq (vs : List Value) : allNormal vs = vs.map normal := by
  induction vs with
  | nil => rfl
  | cons v vs ih => rw [allNormal, ih, List.map_cons]

/-- A property that a value shares with its normal form holds throughout both or neither. -/
theorem throughout_normal (hP : ∀ u : Value, P u.normal ↔ P u) (v : Value) :
    v.normal.Throughout P ↔ v.Throughout P := by
  induction v using collection_induction with
  | list xs ih =>
    have hself := hP (.list xs)
    rw [normal, allNormal_eq] at hself ⊢
    rw [throughout_list, throughout_list, hself, List.forall_mem_map]
    exact and_congr_right fun _ => forall₂_congr ih
  | vector xs ih =>
    have hself := hP (.vector xs)
    rw [normal, allNormal_eq] at hself ⊢
    rw [throughout_vector, throughout_vector, hself, List.forall_mem_map]
    exact and_congr_right fun _ => forall₂_congr ih
  | other v hlist hvector =>
    cases v with
    | list items => exact absurd rfl (hlist items)
    | vector items => exact absurd rfl (hvector items)
    | _ => exact (throughout_atom rfl).trans ((hP _).trans (throughout_atom rfl).symm)

theorem isNumber_normal (u : Value) : u.normal.IsNumber ↔ u.IsNumber := by
  cases u with
  | float x => rw [normal, IsNumber, IsNumber, Double.isNaN_congr x.magnitude_normal]
  | _ => exact Iff.rfl

/-! ## The laws of equality -/

theorem beq_symm {a b : Value} (h : a.beq b = true) : b.beq a = true := by
  rw [beq_iff_normal] at h ⊢
  obtain ⟨hnumber, hnormal⟩ := h
  refine ⟨?_, hnormal.symm⟩
  rwa [← throughout_normal isNumber_normal, ← hnormal, throughout_normal isNumber_normal]

theorem beq_comm (a b : Value) : a.beq b = b.beq a := Bool.eq_iff_iff.2 ⟨beq_symm, beq_symm⟩

theorem beq_trans {a b c : Value} (hab : a.beq b = true) (hbc : b.beq c = true) :
    a.beq c = true := by
  rw [beq_iff_normal] at hab hbc ⊢
  exact ⟨hab.1, hab.2.trans hbc.2⟩

theorem beq_self_iff (v : Value) : v.beq v = true ↔ v.Throughout IsNumber := by
  rw [beq_iff_normal, and_iff_left rfl]

/-- Neither a zero nor a function, a native function or a foreign object. -/
def IsPlain : Value → Prop
  | .float x => x.magnitude ≠ 0
  | .fn _ => False
  | .native _ => False
  | .foreign _ => False
  | _ => True

theorem isPlain_normal (u : Value) : u.normal.IsPlain ↔ u.IsPlain := by
  cases u with
  | float x => rw [normal, IsPlain, IsPlain, x.magnitude_normal]
  | _ => exact Iff.rfl

theorem normal_of_isPlain {v : Value} (h : v.Throughout IsPlain) : v.normal = v := by
  induction v using collection_induction with
  | list xs ih =>
    rw [normal, allNormal_eq,
      List.map_congr_left fun v hv => ih v hv ((throughout_list.1 h).2 v hv), List.map_id']
  | vector xs ih =>
    rw [normal, allNormal_eq,
      List.map_congr_left fun v hv => ih v hv ((throughout_vector.1 h).2 v hv), List.map_id']
  | other v hlist hvector =>
    have hplain := h v .self
    cases v with
    | list items => exact absurd rfl (hlist items)
    | vector items => exact absurd rfl (hvector items)
    | float x => rw [normal, Double.normal, if_neg hplain]
    | fn f => cases hplain
    | native f => cases hplain
    | foreign x => cases hplain
    | _ => rfl

/-- Where equality sees all, equal values are the same. -/
theorem eq_of_beq {a b : Value} (h : a.beq b = true) (ha : a.Throughout IsPlain) : a = b := by
  obtain ⟨-, hnormal⟩ := (beq_iff_normal a b).1 h
  have hb : b.Throughout IsPlain := by
    rwa [← throughout_normal isPlain_normal, ← hnormal, throughout_normal isPlain_normal]
  rwa [normal_of_isPlain ha, normal_of_isPlain hb] at hnormal

end Value

/-- The functions and the foreign objects of a program: an identity stands for one of them. -/
structure Objects where
  closure : Nat → Closure
  foreign : Nat → Foreign

/-- A function or a foreign object of the program, or a value without an identity of that kind. -/
def Objects.Holds (o : Objects) : Value → Prop
  | .fn f => o.closure f.id = f
  | .foreign x => o.foreign x.id = x
  | _ => True

/-- The value with the object that its identity stands for. -/
def Objects.restore (o : Objects) : Value → Value
  | .fn f => .fn (o.closure f.id)
  | .foreign x => .foreign (o.foreign x.id)
  | v => v

namespace Value

/-- A normal form tells the type of a value, for it keeps identities. -/
theorem typeName_restore {o : Objects} {v : Value} (h : o.Holds v) :
    (o.restore v.normal).typeName = v.typeName := by
  cases v with
  | fn f => exact congrArg (fun g => (Value.fn g).typeName) h
  | foreign x => exact congrArg (fun y => (Value.foreign y).typeName) h
  | _ => rfl

theorem typeName_of_beq {o : Objects} {a b : Value} (ha : o.Holds a) (hb : o.Holds b)
    (h : a.beq b = true) : a.typeName = b.typeName := by
  obtain ⟨-, hnormal⟩ := (beq_iff_normal a b).1 h
  rw [← typeName_restore ha, hnormal, typeName_restore hb]

/-- Equality is symmetric and transitive, and a value equals itself exactly if no NaN occurs in it.
Equal values of one program have the same type name, and the same printed form if neither a zero
nor a function, a native function or a foreign object occurs in them. -/
theorem equality_laws (a b c : Value) :
    ((a == b) = true → (b == a) = true) ∧
    ((a == b) = true → (b == c) = true → (a == c) = true) ∧
    ((a == a) = true ↔ ∀ x : Double, Occurs (.float x) a → x.isNaN = false) ∧
    ((a == b) = true →
      (∀ o : Objects, o.Holds a → o.Holds b → a.typeName = b.typeName) ∧
      (a.Throughout IsPlain → a.display = b.display)) := by
  refine ⟨beq_symm, beq_trans, ?_, fun h => ⟨fun o ha hb => typeName_of_beq ha hb h, fun ha => ?_⟩⟩
  · refine (beq_self_iff a).trans ⟨fun h x hx => h _ hx, fun h u hu => ?_⟩
    cases u with
    | float x => exact h x hu
    | _ => trivial
  · rw [eq_of_beq h ha]

/-- A vector with a zero and a macro in it. -/
def zeroAndMacro (negative : Bool) : Value :=
  .vector [.float (.ofMagnitude negative 0), .fn ⟨7, none, none, true, [], none⟩]

theorem equality_laws_zeroAndMacro :
    (zeroAndMacro true == zeroAndMacro false) = true ∧
      (zeroAndMacro false == zeroAndMacro true) = true ∧
      (zeroAndMacro true == zeroAndMacro true) = true ∧
      (zeroAndMacro true).typeName = (zeroAndMacro false).typeName ∧
      ¬ (Value.list [.float .nan] == Value.list [.float .nan]) = true ∧
      ∀ b : Value, (Value.list [.char 'k'] == b) = true → b.display = "(\\k)" := by
  have hforth : (zeroAndMacro true == zeroAndMacro false) = true := by decide
  obtain ⟨hsymm, htrans, -, hsame⟩ :=
    equality_laws (zeroAndMacro true) (zeroAndMacro false) (zeroAndMacro true)
  let o : Objects := ⟨fun id => ⟨id, none, none, true, [], none⟩, fun id => ⟨id, .flag true⟩⟩
  have hnan := (equality_laws (.list [.float .nan]) .nil .nil).2.2.1
  have hplain : Throughout IsPlain (.list [.char 'k']) :=
    throughout_list.2 ⟨trivial, List.forall_mem_singleton.2 ((throughout_atom rfl).2 trivial)⟩
  refine ⟨hforth, hsymm hforth, htrans hforth (hsymm hforth), (hsame hforth).1 o trivial trivial,
    fun h => ?_, fun b h => ?_⟩
  · exact absurd (hnan.1 h .nan (.list List.mem_cons_self .self)) (by decide)
  · rw [← ((equality_laws (.list [.char 'k']) b .nil).2.2.2 h).2 hplain]
    decide

end Value

end LispCore
