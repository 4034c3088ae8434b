import LispCore.Bindings
import LispCore.Name

/-!
# Interned names

Equal names share one allocation, so that two names can be told apart by their addresses alone. An
`Interner` sees to this: it keeps one shared copy of every text, and one shared name for every name
made of shared texts. Symbols and keywords have a table each, over one heap that only grows. Where a
new allocation goes is up to an `Allocator`; all that counts is that the address is not in use.
-/

namespace LispCore

/-- Chooses the addresses of new allocations. -/
structure Allocator where
  next : (used : List Nat) → Nat
  fresh : ∀ used, next used ∉ used

/-- Takes the address after all that are in use. -/
def Allocator.sequential : Allocator where
  next used := used.foldr (fun addr n => max (addr + 1) n) 0
  fresh used := by
    have hbelow : ∀ addr ∈ used, addr < used.foldr (fun addr n => max (addr + 1) n) 0 := by
      induction used with
      | nil => nofun
      | cons a used ih =>
        intro addr haddr
        rw [List.foldr_cons]
        rcases List.mem_cons.1 haddr with rfl | hmem
        · omega
        · have := ih addr hmem
          omega
    exact fun hmem => Nat.lt_irrefl _ (hbelow _ hmem)

/-- The addresses of the shared texts of a name. -/
structure NameKey where
  space : Option Nat
  base : Nat
  deriving DecidableEq

/-- What an allocation holds. -/
inductive Block where
  | text (s : String)
  | name (key : NameKey)

/-- Allocations by address, the latest first. -/
abbrev Heap := List (Nat × Block)

namespace Heap

def at? (addr : Nat) : Heap → Option Block
  | [] => none
  | (a, b) :: older => if a = addr then some b else at? addr older

def used (heap : Heap) : List Nat := heap.map (·.1)

/-- Puts a block on the heap. -/
def alloc (heap : Heap) (allocator : Allocator) (b : Block) : Nat × Heap :=
  let addr := allocator.next heap.used
  (addr, (addr, b) :: heap)

def text? (heap : Heap) (addr : Nat) : Option String :=
  match heap.at? addr with
  | some (.text s) => some s
  | _ => none

/-- The name that shared texts spell. -/
def spelled? (heap : Heap) (key : NameKey) : Option Name :=
  match key.space with
  | none => (heap.text? key.base).map fun base => ⟨none, base⟩
  | some addr => (heap.text? addr).bind fun space =>
    (heap.text? key.base).map fun base => ⟨some space, base⟩

/-- The name at an address. -/
def name? (heap : Heap) (addr : Nat) : Option Name :=
  match heap.at? addr with
  | some (.name key) => heap.spelled? key
  | _ => none

/-- Compares the names at two addresses part by part. -/
def compareNames? (heap : Heap) (a b : Nat) : Option Ordering :=
  (heap.name? a).bind fun m => (heap.name? b).map fun n => compare m n

end Heap

/-- The shared texts and the shared names of one kind. -/
structure Interner where
  texts : Bindings Nat := []
  names : List (NameKey × Nat) := []

/-- A table and the heap that it allocates on. -/
structure Pool where
  heap : Heap
  table : Interner

namespace Pool

def addText (allocator : Allocator) (p : Pool) (s : String) : Nat × Pool :=
  let (addr, heap) := p.heap.alloc allocator (.text s)
  (addr, ⟨heap, { p.table with texts := p.table.texts.insert s addr }⟩)

def addName (allocator : Allocator) (p : Pool) (key : NameKey) : Nat × Pool :=
  let (addr, heap) := p.heap.alloc allocator (.name key)
  (addr, ⟨heap, { p.table with names := (key, addr) :: p.table.names }⟩)

/-- The shared copy of a text. -/
def shareText (allocator : Allocator) (p : Pool) (s : String) : Nat × Pool :=
  match p.table.texts.find? s with
  | some addr => (addr, p)
  | none => p.addText allocator s

/-- The shared copies of the parts of a name. -/
def shareParts (allocator : Allocator) (p : Pool) (n : Name) : NameKey × Pool :=
  match n.space with
  | none =>
    let (base, p) := p.shareText allocator n.base
    (⟨none, base⟩, p)
  | some ns =>
    let (space, p) := p.shareText allocator ns
    let (base, p) := p.shareText allocator n.base
    (⟨some space, base⟩, p)

/-- The shared name that is spelled like the given texts. -/
def find? (p : Pool) (key : NameKey) : Option Nat :=
  (p.table.names.find? fun entry => p.heap.spelled? entry.1 = p.heap.spelled? key).map (·.2)

/-- The address of the one shared copy of a name. -/
def intern (allocator : Allocator) (p : Pool) (n : Name) : Nat × Pool :=
  let (key, p) := p.shareParts allocator n
  match p.find? key with
  | some addr => (addr, p)
  | none => p.addName allocator key

end Pool

/-- The kinds of names, which are interned apart from each other. -/
inductive NameKind where
  | symbol
  | keyword
  deriving DecidableEq, Repr

/-- Compares interned names of one kind. Symbols at one address are equal at once. -/
def NameKind.compare? (heap : Heap) (a b : Nat) : NameKind → Option Ordering
  | symbol => if a = b then some .eq else heap.compareNames? a b
  | keyword => heap.compareNames? a b

/-- The tables of both kinds over their common heap. -/
structure NameTables where
  heap : Heap := []
  table : NameKind → Interner := fun _ => {}

namespace NameTables

def pool (t : NameTables) (kind : NameKind) : Pool := ⟨t.heap, t.table kind⟩

def setPool (t : NameTables) (kind : NameKind) (p : Pool) : NameTables :=
  ⟨p.heap, fun k => if k = kind then p.table else t.table k⟩

/-- Interns a name of some kind. -/
def intern (allocator : Allocator) (t : NameTables) (kind : NameKind) (n : Name) :
    Nat × NameTables :=
  let (addr, p) := (t.pool kind).intern allocator n
  (addr, t.setPool kind p)

/-- Interns one name after the other. -/
def internAll (allocator : Allocator) (t : NameTables) :
    List (NameKind × Name) → List Nat × NameTables
  | [] => ([], t)
  | (kind, n) :: calls =>
    let (addr, t) := t.intern allocator kind n
    let (addrs, t) := t.internAll allocator calls
    (addr :: addrs, t)

end NameTables

end LispCore
