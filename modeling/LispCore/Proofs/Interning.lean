import Mathlib.Data.String.Basic
import LispCore.Name.Interner
import LispCore.Value

/-!
# Interning makes identity and content coincide

`Pool.Sound` is what holds of a table and its heap at any time: the texts and names that it lists
are where it says, the names are made of the shared texts, and no name is listed twice. Interning
keeps this and only adds (`Pool.intern_spec`), and a name that is there is found again
(`Pool.Sound.intern_of_holds`). What is new gets an unused address, so the tables of symbols and of
keywords never meet (`NameTables.intern_spec`). Over a whole run (`NameTables.internAll_spec`) it
follows that two interned names are the same allocation exactly if they are of one kind and equal,
that comparing them by address or by content comes to the same, and that nothing interned later
changes that.
-/

namespace LispCore

/-! ## The order of names -/

namespace Name

/-- No namespace comes first; namespaces are in the order of their texts. -/
def SpaceBefore : Option String → Option String → Prop
  | _, none => False
  | none, some _ => True
  | some a, some b => a < b

/-- By namespace, and within one namespace by base name. -/
def Before (m n : Name) : Prop :=
  SpaceBefore m.space n.space ∨ m.space = n.space ∧ m.base < n.base

variable {a b c : Option String} {l m n : Name}

theorem compareSpace_lt_iff : compareSpace a b = .lt ↔ SpaceBefore a b := by
  cases a <;> cases b <;> simp [compareSpace, SpaceBefore, compare_lt_iff_lt]

theorem compareSpace_eq_iff : compareSpace a b = .eq ↔ a = b := by
  cases a <;> cases b <;> simp [compareSpace]

theorem compareSpace_gt_iff : compareSpace a b = .gt ↔ SpaceBefore b a := by
  cases a <;> cases b <;> simp [compareSpace, SpaceBefore, compare_gt_iff_gt]

theorem SpaceBefore.trans (hab : SpaceBefore a b) (hbc : SpaceBefore b c) : SpaceBefore a c := by
  cases a <;> cases b <;> cases c <;> simp_all only [SpaceBefore]
  exact lt_trans hab hbc

theorem compare_eq_then (m n : Name) :
    compare m n = (compareSpace m.space n.space).then (compare m.base n.base) := rfl

theorem compare_lt_iff : compare m n = .lt ↔ m.Before n := by
  rw [compare_eq_then, Ordering.then_eq_lt, compareSpace_lt_iff, compareSpace_eq_iff,
    compare_lt_iff_lt, Before]

theorem eq_iff : m = n ↔ m.space = n.space ∧ m.base = n.base := by
  cases m; cases n
  rw [Name.mk.injEq]

theorem compare_eq_iff : compare m n = .eq ↔ m = n := by
  rw [compare_eq_then, Ordering.then_eq_eq, compareSpace_eq_iff, compare_eq_iff_eq, eq_iff]

theorem compare_gt_iff : compare m n = .gt ↔ n.Before m := by
  rw [compare_eq_then, Ordering.then_eq_gt, compareSpace_gt_iff, compareSpace_eq_iff,
    compare_gt_iff_gt, Before, eq_comm]

theorem Before.trans (hlm : l.Before m) (hmn : m.Before n) : l.Before n := by
  rcases hlm with hspace | ⟨hspace, hbase⟩
  · rcases hmn with hspace' | ⟨hspace', -⟩
    · exact .inl (hspace.trans hspace')
    · exact .inl (hspace' ▸ hspace)
  · rcases hmn with hspace' | ⟨hspace', hbase'⟩
    · exact .inl (hspace ▸ hspace')
    · exact .inr ⟨hspace.trans hspace', lt_trans hbase hbase'⟩

end Name

/-! ## Heaps that grow -/

namespace Heap

/-- Every allocation stays where it is and as it is. -/
def Grows (heap heap' : Heap) : Prop :=
  ∀ ⦃addr b⦄, heap.at? addr = some b → heap'.at? addr = some b

variable {heap heap' : Heap} {addr : Nat}

theorem mem_used_of_at? {b : Block} (h : heap.at? addr = some b) : addr ∈ heap.used := by
  induction heap with
  | nil => cases h
  | cons entry older ih =>
    rw [at?] at h
    split at h
    · next heq => exact heq ▸ List.mem_cons_self
    · exact List.mem_cons_of_mem _ (ih h)

theorem at?_next (allocator : Allocator) (heap : Heap) :
    heap.at? (allocator.next heap.used) = none := by
  cases h : heap.at? (allocator.next heap.used) with
  | none => rfl
  | some b => exact absurd (mem_used_of_at? h) (allocator.fresh heap.used)

theorem at?_alloc (allocator : Allocator) (heap : Heap) (b : Block) :
    (heap.alloc allocator b).2.at? (heap.alloc allocator b).1 = some b := if_pos rfl

theorem grows_alloc (allocator : Allocator) (heap : Heap) (b : Block) :
    heap.Grows (heap.alloc allocator b).2 := by
  intro addr b' h
  have hne : allocator.next heap.used ≠ addr := by
    rintro rfl
    rw [at?_next] at h
    cases h
  exact (if_neg hne).trans h

theorem Grows.at?_eq_none (h : heap.Grows heap') (hnone : heap'.at? addr = none) :
    heap.at? addr = none := by
  cases hat : heap.at? addr with
  | none => rfl
  | some b =>
    rw [h hat] at hnone
    cases hnone

theorem text?_of_at? {s : String} (h : heap.at? addr = some (.text s)) :
    heap.text? addr = some s := by
  rw [text?, h]

theorem name?_of_at? {key : NameKey} (h : heap.at? addr = some (.name key)) :
    heap.name? addr = heap.spelled? key := by
  rw [name?, h]

end Heap

/-! ## One table -/

namespace Interner

/-- The shared texts of a name, if both of its parts have one. -/
def key? (t : Interner) (n : Name) : Option NameKey :=
  match n.space with
  | none => (t.texts.find? n.base).map fun base => ⟨none, base⟩
  | some ns => (t.texts.find? ns).bind fun space =>
    (t.texts.find? n.base).map fun base => ⟨some space, base⟩

variable {t t' : Interner} {n : Name} {key : NameKey}

theorem key?_base_iff {base : String} : t.key? ⟨none, base⟩ = some key ↔
    ∃ addr, t.texts.find? base = some addr ∧ ⟨none, addr⟩ = key :=
  Option.map_eq_some_iff

theorem key?_space_iff {ns base : String} : t.key? ⟨some ns, base⟩ = some key ↔
    ∃ space, t.texts.find? ns = some space ∧
      ∃ addr, t.texts.find? base = some addr ∧ ⟨some space, addr⟩ = key :=
  Option.bind_eq_some_iff.trans
    (exists_congr fun _ => and_congr_right fun _ => Option.map_eq_some_iff)

theorem key?_mono (htexts : ∀ s addr, t.texts.find? s = some addr → t'.texts.find? s = some addr)
    (h : t.key? n = some key) : t'.key? n = some key := by
  obtain ⟨space, base⟩ := n
  cases space with
  | none =>
    obtain ⟨addr, hbase, hkey⟩ := key?_base_iff.1 h
    exact key?_base_iff.2 ⟨addr, htexts _ _ hbase, hkey⟩
  | some ns =>
    obtain ⟨space, hspace, addr, hbase, hkey⟩ := key?_space_iff.1 h
    exact key?_space_iff.2 ⟨space, htexts _ _ hspace, addr, htexts _ _ hbase, hkey⟩

/-- Shared texts spell the name that they are the parts of. -/
theorem spelled?_of_key? {heap : Heap}
    (htexts : ∀ s addr, t.texts.find? s = some addr → heap.text? addr = some s)
    (h : t.key? n = some key) : heap.spelled? key = some n := by
  obtain ⟨space, base⟩ := n
  cases space with
  | none =>
    obtain ⟨addr, hbase, rfl⟩ := key?_base_iff.1 h
    simp only [Heap.spelled?, htexts _ _ hbase, Option.map_some]
  | some ns =>
    obtain ⟨space, hspace, addr, hbase, rfl⟩ := key?_space_iff.1 h
    simp only [Heap.spelled?, htexts _ _ hspace, htexts _ _ hbase, Option.map_some,
      Option.bind_some]

end Interner

namespace Pool

/-- What holds of a table and its heap. -/
structure Sound (p : Pool) : Prop where
  texts {s : String} {addr : Nat} : p.table.texts.find? s = some addr →
    p.heap.at? addr = some (.text s)
  names {key : NameKey} {addr : Nat} : (key, addr) ∈ p.table.names →
    p.heap.at? addr = some (.name key)
  /-- The texts of a listed name are the shared ones. -/
  keys {key : NameKey} {addr : Nat} : (key, addr) ∈ p.table.names → ∃ n, p.table.key? n = some key
  unique {key : NameKey} {a b : Nat} : (key, a) ∈ p.table.names → (key, b) ∈ p.table.names → a = b

/-- The name is listed, at that address. -/
def Holds (p : Pool) (n : Name) (addr : Nat) : Prop :=
  ∃ key, p.table.key? n = some key ∧ (key, addr) ∈ p.table.names

/-- `p'` has all that `p` has, and lists what is new at addresses that were not in use. -/
structure Extends (p p' : Pool) : Prop where
  heap : p.heap.Grows p'.heap
  texts {s : String} {addr : Nat} : p.table.texts.find? s = some addr →
    p'.table.texts.find? s = some addr
  names {entry : NameKey × Nat} : entry ∈ p.table.names → entry ∈ p'.table.names
  fresh {entry : NameKey × Nat} : entry ∈ p'.table.names →
    entry ∈ p.table.names ∨ p.heap.at? entry.2 = none

namespace Extends

variable {p p₁ p₂ : Pool}

theorem refl (p : Pool) : p.Extends p := ⟨fun _ _ h => h, id, id, .inl⟩

theorem trans (h₁ : p.Extends p₁) (h₂ : p₁.Extends p₂) : p.Extends p₂ where
  heap _ _ h := h₂.heap (h₁.heap h)
  texts h := h₂.texts (h₁.texts h)
  names h := h₂.names (h₁.names h)
  fresh h := by
    rcases h₂.fresh h with hmem | hnone
    · exact h₁.fresh hmem
    · exact .inr (h₁.heap.at?_eq_none hnone)

theorem holds (h : p.Extends p₁) {n : Name} {addr : Nat} (hn : p.Holds n addr) :
    p₁.Holds n addr := by
  obtain ⟨key, hkey, hmem⟩ := hn
  exact ⟨key, Interner.key?_mono (fun _ _ => h.texts) hkey, h.names hmem⟩

end Extends

namespace Sound

variable {p : Pool} {n : Name} {key : NameKey} {addr : Nat}

theorem spelled? (h : p.Sound) (hkey : p.table.key? n = some key) :
    p.heap.spelled? key = some n :=
  Interner.spelled?_of_key? (fun _ _ htext => Heap.text?_of_at? (h.texts htext)) hkey

theorem at?_of_holds (h : p.Sound) (hn : p.Holds n addr) : ∃ b, p.heap.at? addr = some b := by
  obtain ⟨key, -, hmem⟩ := hn
  exact ⟨_, h.names hmem⟩

theorem name?_of_holds (h : p.Sound) (hn : p.Holds n addr) : p.heap.name? addr = some n := by
  obtain ⟨key, hkey, hmem⟩ := hn
  rw [Heap.name?_of_at? (h.names hmem), h.spelled? hkey]

/-- The table lists one address for one name, and one name for one address. -/
theorem holds_iff (h : p.Sound) {m : Name} {a b : Nat} (hm : p.Holds m a) (hn : p.Holds n b) :
    a = b ↔ m = n := by
  constructor
  · rintro rfl
    exact Option.some.inj ((h.name?_of_holds hm).symm.trans (h.name?_of_holds hn))
  · rintro rfl
    obtain ⟨key, hkey, hmem⟩ := hm
    obtain ⟨key', hkey', hmem'⟩ := hn
    obtain rfl : key = key' := Option.some.inj (hkey.symm.trans hkey')
    exact h.unique hmem hmem'

/-- Entries that spell the same name have the same texts, since all texts are shared. -/
theorem key_eq (h : p.Sound) {entry : NameKey × Nat} (hmem : entry ∈ p.table.names)
    (hkey : p.table.key? n = some key)
    (hsame : p.heap.spelled? entry.1 = p.heap.spelled? key) : entry.1 = key := by
  obtain ⟨m, hm⟩ := h.keys hmem
  rw [h.spelled? hm, h.spelled? hkey] at hsame
  cases hsame
  exact Option.some.inj (hm.symm.trans hkey)

/-- Names are searched by what they spell, and only the entry with the very same texts is found. -/
theorem find?_iff (h : p.Sound) (hkey : p.table.key? n = some key) :
    p.find? key = some addr ↔ (key, addr) ∈ p.table.names := by
  have hfound {entry : NameKey × Nat}
      (hfind : p.table.names.find?
        (fun e => p.heap.spelled? e.1 = p.heap.spelled? key) = some entry) :
      (key, entry.2) ∈ p.table.names := by
    have hmem := List.mem_of_find?_eq_some hfind
    have hsame := List.find?_some hfind
    rw [← h.key_eq hmem hkey (by simpa using hsame)]
    exact hmem
  constructor
  · intro hfind
    obtain ⟨entry, hentry, rfl⟩ := Option.map_eq_some_iff.1 hfind
    exact hfound hentry
  · intro hmem
    cases hfind : p.table.names.find? fun e => p.heap.spelled? e.1 = p.heap.spelled? key with
    | none => simpa using List.find?_eq_none.1 hfind _ hmem
    | some entry =>
      rw [find?, hfind, h.unique hmem (hfound hfind)]
      rfl

/-- A table stays sound when something else is put on its heap. -/
theorem mono (h : p.Sound) {heap : Heap} (hheap : p.heap.Grows heap) :
    Sound ⟨heap, p.table⟩ :=
  ⟨fun htext => hheap (h.texts htext), fun hmem => hheap (h.names hmem), h.keys, h.unique⟩

end Sound

/-! ## What interning does to a table -/

variable {p : Pool} {n : Name} {key : NameKey} {addr : Nat} {s : String}

theorem shareText_of_find? (allocator : Allocator) (h : p.table.texts.find? s = some addr) :
    p.shareText allocator s = (addr, p) := by
  rw [shareText, h]

theorem shareParts_of_key? (allocator : Allocator) (h : p.table.key? n = some key) :
    p.shareParts allocator n = (key, p) := by
  obtain ⟨space, base⟩ := n
  cases space with
  | none =>
    obtain ⟨addr, hbase, rfl⟩ := Interner.key?_base_iff.1 h
    simp only [shareParts, shareText_of_find? allocator hbase]
  | some ns =>
    obtain ⟨space, hspace, addr, hbase, rfl⟩ := Interner.key?_space_iff.1 h
    simp only [shareParts, shareText_of_find? allocator hspace,
      shareText_of_find? allocator hbase]

/-- A name that is there is found, and nothing changes. -/
theorem Sound.intern_of_holds (allocator : Allocator) (h : p.Sound) (hn : p.Holds n addr) :
    p.intern allocator n = (addr, p) := by
  obtain ⟨key, hkey, hmem⟩ := hn
  simp only [intern, shareParts_of_key? allocator hkey, (h.find?_iff hkey).2 hmem]

theorem addText_spec (allocator : Allocator) (h : p.Sound) (hnew : p.table.texts.find? s = none) :
    p.Extends (p.addText allocator s).2 ∧ (p.addText allocator s).2.Sound ∧
      (p.addText allocator s).2.table.texts.find? s = some (p.addText allocator s).1 := by
  have hgrows := p.heap.grows_alloc allocator (.text s)
  have hat := p.heap.at?_alloc allocator (.text s)
  rw [addText]
  generalize p.heap.alloc allocator (.text s) = new at hgrows hat
  obtain ⟨addr, heap⟩ := new
  dsimp only at hgrows hat ⊢
  have htexts : ∀ s' a, p.table.texts.find? s' = some a →
      (p.table.texts.insert s addr).find? s' = some a := by
    intro s' a hs'
    rw [Bindings.find?_insert, if_neg, hs']
    rintro rfl
    rw [hnew] at hs'
    cases hs'
  refine ⟨⟨hgrows, htexts _ _, id, .inl⟩,
    ⟨?texts, fun hmem => hgrows (h.names hmem), ?keys, h.unique⟩, ?found⟩
  case texts =>
    intro s' a hs'
    rw [Bindings.find?_insert] at hs'
    split at hs'
    · next heq =>
      cases hs'
      exact heq ▸ hat
    · exact hgrows (h.texts hs')
  case keys =>
    intro key a hmem
    obtain ⟨n, hn⟩ := h.keys hmem
    exact ⟨n, Interner.key?_mono htexts hn⟩
  case found => rw [Bindings.find?_insert, if_pos rfl]

theorem shareText_spec (allocator : Allocator) (h : p.Sound) (s : String) :
    p.Extends (p.shareText allocator s).2 ∧ (p.shareText allocator s).2.Sound ∧
      (p.shareText allocator s).2.table.texts.find? s = some (p.shareText allocator s).1 := by
  rw [shareText]
  cases hfind : p.table.texts.find? s with
  | some addr => exact ⟨.refl p, h, hfind⟩
  | none => exact addText_spec allocator h hfind

theorem shareParts_spec (allocator : Allocator) (h : p.Sound) (n : Name) :
    p.Extends (p.shareParts allocator n).2 ∧ (p.shareParts allocator n).2.Sound ∧
      (p.shareParts allocator n).2.table.key? n = some (p.shareParts allocator n).1 := by
  obtain ⟨space, base⟩ := n
  cases space with
  | none =>
    obtain ⟨hext, hsound, hbase⟩ := shareText_spec allocator h base
    exact ⟨hext, hsound, Interner.key?_base_iff.2 ⟨_, hbase, rfl⟩⟩
  | some ns =>
    obtain ⟨hext₁, hsound₁, hspace⟩ := shareText_spec allocator h ns
    obtain ⟨hext₂, hsound₂, hbase⟩ := shareText_spec allocator hsound₁ base
    exact ⟨hext₁.trans hext₂, hsound₂,
      Interner.key?_space_iff.2 ⟨_, hext₂.texts hspace, _, hbase, rfl⟩⟩

theorem addName_spec (allocator : Allocator) (h : p.Sound) (hkey : p.table.key? n = some key)
    (hnew : p.find? key = none) :
    p.Extends (p.addName allocator key).2 ∧ (p.addName allocator key).2.Sound ∧
      (p.addName allocator key).2.Holds n (p.addName allocator key).1 := by
  have hgrows := p.heap.grows_alloc allocator (.name key)
  have hunlisted (addr : Nat) : (key, addr) ∉ p.table.names := by
    intro hmem
    rw [(h.find?_iff hkey).2 hmem] at hnew
    cases hnew
  refine ⟨⟨hgrows, id, List.mem_cons_of_mem _, ?fresh⟩,
    ⟨fun htext => hgrows (h.texts htext), ?names, ?keys, ?unique⟩, key, hkey, List.mem_cons_self⟩
  case fresh =>
    intro entry hmem
    rcases List.mem_cons.1 hmem with rfl | hmem
    · exact .inr (p.heap.at?_next allocator)
    · exact .inl hmem
  case names =>
    intro key' addr hmem
    rcases List.mem_cons.1 hmem with heq | hmem
    · cases heq
      exact p.heap.at?_alloc allocator (.name key)
    · exact hgrows (h.names hmem)
  case keys =>
    intro key' addr hmem
    rcases List.mem_cons.1 hmem with heq | hmem
    · cases heq
      exact ⟨n, hkey⟩
    · exact h.keys hmem
  case unique =>
    -- the new entry is the only one with its texts
    intro key' a b ha hb
    rcases List.mem_cons.1 ha with heq | ha <;> rcases List.mem_cons.1 hb with heq' | hb
    · cases heq; cases heq'
      rfl
    · cases heq
      exact absurd hb (hunlisted b)
    · cases heq'
      exact absurd ha (hunlisted a)
    · exact h.unique ha hb

/-- Interning only adds to a table, keeps it sound and answers where the name is. -/
theorem intern_spec (allocator : Allocator) (h : p.Sound) (n : Name) :
    p.Extends (p.intern allocator n).2 ∧ (p.intern allocator n).2.Sound ∧
      (p.intern allocator n).2.Holds n (p.intern allocator n).1 := by
  obtain ⟨hext, hsound, hkey⟩ := shareParts_spec allocator h n
  rw [intern]
  generalize p.shareParts allocator n = shared at hext hsound hkey
  obtain ⟨key, q⟩ := shared
  dsimp only at hext hsound hkey ⊢
  cases hfind : q.find? key with
  | some addr => exact ⟨hext, hsound, key, hkey, (hsound.find?_iff hkey).1 hfind⟩
  | none =>
    obtain ⟨hext', hsound', hholds⟩ := addName_spec allocator hsound hkey hfind
    exact ⟨hext.trans hext', hsound', hholds⟩

end Pool

/-! ## Both tables -/

namespace NameTables

/-- Each table is sound, and no allocation is a name of both. -/
structure Sound (t : NameTables) : Prop where
  pool (kind : NameKind) : (t.pool kind).Sound
  apart {k l : NameKind} {e e' : NameKey × Nat} : e ∈ (t.table k).names →
    e' ∈ (t.table l).names → e.2 = e'.2 → k = l

def Extends (t t' : NameTables) : Prop := ∀ kind, (t.pool kind).Extends (t'.pool kind)

variable {t t' t'' : NameTables} {kind : NameKind} {p : Pool}

theorem Extends.refl (t : NameTables) : t.Extends t := fun kind => .refl (t.pool kind)

theorem Extends.trans (h : t.Extends t') (h' : t'.Extends t'') : t.Extends t'' :=
  fun kind => (h kind).trans (h' kind)

theorem sound_empty : Sound {} where
  pool _ := ⟨nofun, nofun, nofun, nofun⟩
  apart := nofun

theorem pool_setPool (t : NameTables) (kind k : NameKind) (p : Pool) :
    (t.setPool kind p).pool k = if k = kind then p else ⟨p.heap, t.table k⟩ := by
  simp only [pool, setPool]
  split <;> rfl

theorem setPool_pool (t : NameTables) (kind : NameKind) : t.setPool kind (t.pool kind) = t := by
  obtain ⟨heap, table⟩ := t
  refine congrArg (NameTables.mk heap) (funext fun k => ?_)
  simp only [pool]
  split
  · next heq => rw [heq]
  · rfl

theorem extends_setPool (h : (t.pool kind).Extends p) : t.Extends (t.setPool kind p) := by
  intro k
  rw [pool_setPool]
  split
  · next heq => exact heq ▸ h
  · exact ⟨h.heap, id, id, .inl⟩

/-- What one table adds is at addresses that the other table does not use. -/
theorem Sound.setPool (ht : t.Sound) (hp : p.Sound) (h : (t.pool kind).Extends p) :
    (t.setPool kind p).Sound := by
  have hother {l : NameKind} {e e' : NameKey × Nat} (hl : l ≠ kind) (he : e ∈ p.table.names)
      (he' : e' ∈ (t.table l).names) : e.2 ≠ e'.2 := by
    intro haddr
    rcases h.fresh he with hold | hnone
    · exact hl (ht.apart hold he' haddr).symm
    · have hat : t.heap.at? e'.2 = some (.name e'.1) := (ht.pool l).names he'
      rw [haddr, show (t.pool kind).heap = t.heap from rfl, hat] at hnone
      cases hnone
  constructor
  · intro k
    rw [pool_setPool]
    split
    · exact hp
    · exact (ht.pool k).mono h.heap
  · intro k l e e' he he' haddr
    simp only [NameTables.setPool] at he he'
    split at he <;> split at he'
    · next hk hl => rw [hk, hl]
    · next hk hl => exact absurd haddr (hother hl he he')
    · next hk hl => exact absurd haddr.symm (hother hk he' he)
    · exact ht.apart he he' haddr

/-- One call keeps the tables sound and all that they hold, and answers where the name is. -/
theorem intern_spec (allocator : Allocator) (h : t.Sound) (kind : NameKind) (n : Name) :
    t.Extends (t.intern allocator kind n).2 ∧ (t.intern allocator kind n).2.Sound ∧
      ((t.intern allocator kind n).2.pool kind).Holds n (t.intern allocator kind n).1 := by
  obtain ⟨hext, hsound, hholds⟩ := Pool.intern_spec allocator (h.pool kind) n
  refine ⟨extends_setPool hext, h.setPool hsound hext, ?_⟩
  rw [intern, pool_setPool, if_pos rfl]
  exact hholds

/-- So does a run, and at its end every answer is still good. -/
theorem internAll_spec (allocator : Allocator) (h : t.Sound) (calls : List (NameKind × Name)) :
    t.Extends (t.internAll allocator calls).2 ∧ (t.internAll allocator calls).2.Sound ∧
      (t.internAll allocator calls).1.length = calls.length ∧
      ∀ {kind n addr}, ((kind, n), addr) ∈ calls.zip (t.internAll allocator calls).1 →
        ((t.internAll allocator calls).2.pool kind).Holds n addr := by
  induction calls generalizing t with
  | nil => exact ⟨.refl t, h, rfl, nofun⟩
  | cons call calls ih =>
    obtain ⟨kind, n⟩ := call
    obtain ⟨hext, hsound, hholds⟩ := intern_spec allocator h kind n
    obtain ⟨hext', hsound', hlength, hall⟩ := ih hsound
    refine ⟨hext.trans hext', hsound', congrArg (· + 1) hlength, ?_⟩
    intro kind' n' addr hmem
    rcases List.mem_cons.1 hmem with heq | hmem
    · cases heq
      exact (hext' kind).holds hholds
    · exact hall hmem

/-- In sound tables an address stands for one name of one kind. -/
theorem Sound.holds_iff (h : t.Sound) {k l : NameKind} {m n : Name} {a b : Nat}
    (hm : (t.pool k).Holds m a) (hn : (t.pool l).Holds n b) : a = b ↔ k = l ∧ m = n := by
  constructor
  · intro heq
    have ⟨_, _, hmem⟩ := hm
    have ⟨_, _, hmem'⟩ := hn
    obtain rfl := h.apart hmem hmem' heq
    exact ⟨rfl, ((h.pool k).holds_iff hm hn).1 heq⟩
  · rintro ⟨rfl, heq⟩
    exact ((h.pool k).holds_iff hm hn).2 heq

theorem Sound.intern_of_holds (allocator : Allocator) (h : t.Sound) {n : Name} {addr : Nat}
    (hn : (t.pool kind).Holds n addr) : t.intern allocator kind n = (addr, t) := by
  simp only [intern, (h.pool kind).intern_of_holds allocator hn, setPool_pool]

end NameTables

namespace NameKind

/-- The value that a name of some kind is. -/
def value : NameKind → Name → Value
  | symbol, n => .symbol ⟨n⟩
  | keyword, n => .keyword ⟨n⟩

theorem value_beq_iff {k l : NameKind} {m n : Name} :
    (k.value m == l.value n) = true ↔ k = l ∧ m = n := by
  cases k <;> cases l <;> simp [value, BEq.beq, Value.beq]

/-- The shortcut on equal addresses makes no difference. -/
theorem compare?_eq {heap : Heap} {m n : Name} {a b : Nat} (k : NameKind)
    (hm : heap.name? a = some m) (hn : heap.name? b = some n) :
    k.compare? heap a b = some (compare m n) := by
  have hparts : heap.compareNames? a b = some (compare m n) := by
    rw [Heap.compareNames?, hm, hn]
    rfl
  cases k with
  | keyword => exact hparts
  | symbol =>
    rw [compare?]
    split
    · next heq =>
      obtain rfl : m = n := Option.some.inj (hm.symm.trans (heq ▸ hn))
      rw [Name.compare_eq_iff.2 rfl]
    · exact hparts

end NameKind

namespace NameTables

/-- For every run of calls, whatever addresses the allocator picks: two answers are one allocation
exactly if they are for the same kind, namespace and base name, so that equality and comparison of
names can be decided by address. An answer holds its name, and no later call changes it or gives
that name another one. The order is strict and total: names without a namespace come first, the
others follow by namespace, and within a namespace names go by their base. -/
theorem identity_is_content (allocator : Allocator) (calls : List (NameKind × Name))
    (results : List Nat) (now : NameTables)
    (hrun : internAll allocator {} calls = (results, now)) :
    results.length = calls.length ∧
    (∀ k m a l n b, ((k, m), a) ∈ calls.zip results → ((l, n), b) ∈ calls.zip results →
      (a = b ↔ k = l ∧ m.space = n.space ∧ m.base = n.base) ∧
      (a = b ↔ (k.value m == l.value n) = true) ∧
      (k = l → k.compare? now.heap a b = some (compare m n) ∧ (a = b ↔ compare m n = .eq))) ∧
    (∀ k m a, ((k, m), a) ∈ calls.zip results →
      now.heap.name? a = some m ∧
      ∀ later addrs last, now.internAll allocator later = (addrs, last) →
        last.heap.at? a = now.heap.at? a ∧ last.heap.name? a = some m ∧
        last.intern allocator k m = (a, last)) ∧
    ∀ l m n : Name, (compare m n = .lt ↔ m.Before n) ∧ (compare m n = .eq ↔ m = n) ∧
      (compare m n = .gt ↔ n.Before m) ∧ (l.Before m → m.Before n → l.Before n) := by
  obtain ⟨-, hsound, hlength, hholds⟩ := internAll_spec allocator sound_empty calls
  rw [hrun] at hsound hlength hholds
  refine ⟨hlength, ?_, ?_, fun l m n =>
    ⟨Name.compare_lt_iff, Name.compare_eq_iff, Name.compare_gt_iff, Name.Before.trans⟩⟩
  · intro k m a l n b ha hb
    have hiff := hsound.holds_iff (hholds ha) (hholds hb)
    refine ⟨by rw [hiff, Name.eq_iff], by rw [hiff, NameKind.value_beq_iff], ?_⟩
    rintro rfl
    have hm := (hsound.pool k).name?_of_holds (hholds ha)
    have hn := (hsound.pool k).name?_of_holds (hholds hb)
    refine ⟨k.compare?_eq hm hn, ?_⟩
    rw [hiff, Name.compare_eq_iff]
    exact and_iff_right rfl
  · intro k m a ha
    refine ⟨(hsound.pool k).name?_of_holds (hholds ha), fun later addrs last hlater => ?_⟩
    obtain ⟨hext, hsound', -⟩ := internAll_spec allocator hsound later
    rw [hlater] at hext hsound'
    obtain ⟨b, hb⟩ := (hsound.pool k).at?_of_holds (hholds ha)
    have hlast := (hext k).holds (hholds ha)
    exact ⟨((hext k).heap hb).trans hb.symm, (hsound'.pool k).name?_of_holds hlast,
      hsound'.intern_of_holds allocator hlast⟩

/-- A symbol and a keyword of one name, the symbol without its namespace, and the symbol again. -/
def fourCalls : List (NameKind × Name) :=
  [(.symbol, ⟨some "user", "x"⟩), (.keyword, ⟨some "user", "x"⟩), (.symbol, ⟨none, "x"⟩),
    (.symbol, ⟨some "user", "x"⟩)]

theorem identity_is_content_fourCalls :
    ∃ now, internAll .sequential {} fourCalls = ([2, 5, 6, 2], now) ∧
      (2 = 6 ↔ NameKind.symbol = .symbol ∧ some "user" = none ∧ "x" = "x") ∧
      now.heap.name? 5 = some ⟨some "user", "x"⟩ ∧
      NameKind.symbol.compare? now.heap 6 2 = some .lt ∧
      (now.internAll .sequential fourCalls).2.intern .sequential .symbol ⟨none, "x"⟩ =
        (6, (now.internAll .sequential fourCalls).2) := by
  have hrun : internAll .sequential {} fourCalls =
      ([2, 5, 6, 2], (internAll .sequential {} fourCalls).2) := Prod.ext (by decide) rfl
  refine ⟨_, hrun, ?_⟩
  obtain ⟨-, hpairs, hheld, horder⟩ := identity_is_content .sequential fourCalls _ _ hrun
  obtain ⟨hsame, -, -⟩ :=
    hpairs .symbol ⟨some "user", "x"⟩ 2 .symbol ⟨none, "x"⟩ 6 (by decide) (by decide)
  obtain ⟨-, -, hcompare⟩ :=
    hpairs .symbol ⟨none, "x"⟩ 6 .symbol ⟨some "user", "x"⟩ 2 (by decide) (by decide)
  obtain ⟨hless, -⟩ := horder ⟨none, "x"⟩ ⟨none, "x"⟩ ⟨some "user", "x"⟩
  refine ⟨hsame, (hheld .keyword ⟨some "user", "x"⟩ 5 (by decide)).1, ?_, ?_⟩
  · rw [(hcompare rfl).1, hless.2 (.inl trivial)]
  · exact ((hheld .symbol ⟨none, "x"⟩ 6 (by decide)).2 fourCalls _ _ (Prod.eta _).symm).2.2

end NameTables

end LispCore
