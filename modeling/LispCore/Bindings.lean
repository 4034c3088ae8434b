/-!
# Bindings

`Bindings α` maps names to values of type `α`, as a list of pairs in the order of the names.
Keeping the names sorted gives every map one representation, and `keys` lists them in order. The
law that says what `insert` does is `find?_insert`.
-/

namespace LispCore

abbrev Bindings (α : Type) := List (String × α)

namespace Bindings

variable {α : Type}

/-- The value bound to `name`. -/
def find? (name : String) : Bindings α → Option α
  | [] => none
  | (k, v) :: rest => if k = name then some v else find? name rest

/-- Binds `name`, replacing an older binding of it. -/
def insert (name : String) (value : α) : Bindings α → Bindings α
  | [] => [(name, value)]
  | (k, v) :: rest =>
    if k = name then (name, value) :: rest
    else if name < k then (name, value) :: (k, v) :: rest
    else (k, v) :: insert name value rest

/-- Removes the binding of `name`. -/
def erase (name : String) : Bindings α → Bindings α
  | [] => []
  | (k, v) :: rest => if k = name then rest else (k, v) :: erase name rest

/-- Binds each pair in turn, so that of two pairs with one name the later one stays. -/
def ofPairs (pairs : List (String × α)) : Bindings α :=
  pairs.foldl (fun b (k, v) => insert k v b) []

def contains (name : String) (b : Bindings α) : Bool := (b.find? name).isSome

/-- The bound names, in order. -/
def keys (b : Bindings α) : List String := b.map (·.1)

theorem find?_insert (name k : String) (value : α) (b : Bindings α) :
    (b.insert name value).find? k = if name = k then some value else b.find? k := by
  induction b with
  | nil => simp [insert, find?]
  | cons p rest ih =>
    obtain ⟨k', v⟩ := p
    by_cases hk : k' = name
    · subst hk; by_cases h : k' = k <;> simp [insert, find?, h]
    · by_cases hlt : name < k'
      · simp [insert, hk, hlt, find?]
      · by_cases h : k' = k
        · subst h; simp [insert, hk, hlt, find?, Ne.symm hk]
        · simp [insert, hk, hlt, find?, h, ih]

/-- The values can be changed before or after a lookup. -/
theorem find?_map {β : Type} (f : α → β) (b : Bindings α) (k : String) :
    find? k (b.map fun p => (p.1, f p.2)) = (b.find? k).map f := by
  induction b with
  | nil => rfl
  | cons p rest ih => by_cases h : p.1 = k <;> simp [find?, h, ih]

theorem insert_map {β : Type} (f : α → β) (name : String) (value : α) (b : Bindings α) :
    (b.insert name value).map (fun p => (p.1, f p.2)) =
      Bindings.insert name (f value) (b.map fun p => (p.1, f p.2)) := by
  induction b with
  | nil => rfl
  | cons p rest ih =>
    unfold insert
    by_cases hname : p.1 = name
    · simp [hname]
    · by_cases hlt : name < p.1
      · simp [hname, hlt]
      · simpa [hname, hlt] using ih

theorem mem_keys_insert (name k : String) (value : α) (b : Bindings α) :
    k ∈ (b.insert name value).keys ↔ k = name ∨ k ∈ b.keys := by
  induction b with
  | nil => simp [insert, keys]
  | cons p rest ih =>
    obtain ⟨k', v⟩ := p
    simp only [keys] at ih ⊢
    by_cases hk : k' = name
    · simp [insert, hk]
    · by_cases hlt : name < k'
      · simp [insert, hk, hlt]
      · simp only [insert, hk, hlt, ↓reduceIte, List.map_cons, List.mem_cons, ih]
        constructor
        · rintro (h | h | h)
          · exact .inr (.inl h)
          · exact .inl h
          · exact .inr (.inr h)
        · rintro (h | h | h)
          · exact .inr (.inl h)
          · exact .inl h
          · exact .inr (.inr h)

theorem contains_iff_mem_keys {name : String} {b : Bindings α} :
    b.contains name = true ↔ name ∈ b.keys := by
  induction b with
  | nil => simp [contains, find?, keys]
  | cons p rest ih =>
    obtain ⟨k, v⟩ := p
    simp only [contains, keys, find?, List.map_cons, List.mem_cons] at ih ⊢
    by_cases hk : k = name
    · simp [hk]
    · simp [hk, Ne.symm hk, ih]

theorem mem_of_find? {b : Bindings α} {name : String} {v : α}
    (h : b.find? name = some v) : (name, v) ∈ b := by
  induction b with
  | nil => cases h
  | cons p rest ih =>
    unfold find? at h
    split at h
    · next hname =>
      cases h
      exact hname ▸ List.mem_cons_self
    · exact List.mem_cons_of_mem p (ih h)

theorem mem_of_mem_insert {b : Bindings α} {name : String} {v : α} {p : String × α}
    (h : p ∈ b.insert name v) : p = (name, v) ∨ p ∈ b := by
  induction b with
  | nil => exact .inl (List.mem_singleton.1 h)
  | cons q rest ih =>
    obtain ⟨k, w⟩ := q
    unfold insert at h
    split at h
    · exact (List.mem_cons.1 h).imp_right (List.mem_cons_of_mem _)
    · split at h
      · exact List.mem_cons.1 h
      · rcases List.mem_cons.1 h with rfl | hrest
        · exact .inr List.mem_cons_self
        · exact (ih hrest).imp_right (List.mem_cons_of_mem _)

theorem mem_of_mem_ofPairs {pairs : List (String × α)} {p : String × α} (h : p ∈ ofPairs pairs) :
    p ∈ pairs := by
  suffices go : ∀ b : Bindings α, p ∈ pairs.foldl (fun b q => insert q.1 q.2 b) b →
      p ∈ pairs ∨ p ∈ b from (go [] h).resolve_right nofun
  clear h
  induction pairs with
  | nil => exact fun b h => .inr h
  | cons q rest ih =>
    intro b h
    rcases ih _ h with hmem | hmem
    · exact .inl (List.mem_cons_of_mem q hmem)
    · rcases mem_of_mem_insert hmem with rfl | hmem
      · exact .inl List.mem_cons_self
      · exact .inr hmem

theorem mem_of_find?_ofPairs {pairs : List (String × α)} {name : String} {v : α}
    (h : (ofPairs pairs).find? name = some v) : (name, v) ∈ pairs :=
  mem_of_mem_ofPairs (mem_of_find? h)

end Bindings

end LispCore
