import LispCore.Bindings
import LispCore.Error
import LispCore.Value

/-!
# Global bindings

`Globals` is what a root environment binds: one table of bindings for every namespace, and the
name of the active one. A name is bound without the blank characters around it, and lookups take
names as they are. Every operation that fails leaves the globals alone, since it returns no new
ones.
-/

namespace LispCore

/-- The name under which `name` is bound: itself without surrounding blanks, if something is
left of it. -/
def bindingName (name : String) : Except Error String :=
  let trimmed := Text.trim name
  if trimmed.isEmpty then .error (.invalidName name) else .ok trimmed

theorem bindingName_eq (name : String) : bindingName name =
    if Text.allBlank name then .error (.invalidName name) else .ok (Text.trim name) := by
  have hblank : (Text.trim name).isEmpty = Text.allBlank name := by
    rw [Bool.eq_iff_iff, Text.allBlank, ← Text.trimChars_eq_nil_iff, Text.trim,
      String.isEmpty_iff, String.ofList_eq_empty_iff]
  unfold bindingName
  simp only [hblank]

structure Globals where
  active : String
  tables : Bindings (Bindings Value)
  deriving Inhabited

namespace Globals

/-- Globals with one empty namespace, which is active. -/
def ofNamespace (ns : String) : Globals := ⟨ns, [(ns, [])]⟩

/-- The namespace in which a program starts unless told otherwise. -/
def defaultNamespace : String := "user"

/-- The names of the namespaces, in order. -/
def namespaces (g : Globals) : List String := g.tables.keys

/-- The value bound to `name` in the active namespace. -/
def findActive? (g : Globals) (name : String) : Option Value :=
  (g.tables.find? g.active).bind (·.find? name)

/-- Looks `name` up in an explicit namespace. -/
def resolveQualified (g : Globals) (ns name : String) : Except Error Value :=
  match g.tables.find? ns with
  | none => .error (.namespaceNotFound ns)
  | some table => match table.find? name with
    | none => .error (.notFound (ns ++ "/" ++ name))
    | some v => .ok v

/-- A symbol without namespace is looked up in the active one. -/
def lookup (g : Globals) (s : Symbol) : Except Error Value :=
  match s.space with
  | some ns => g.resolveQualified ns s.base
  | none => match g.findActive? s.base with
    | some v => .ok v
    | none => .error (.notFound s.text)

/-- The table of a namespace; an unknown one counts as empty. -/
def table (g : Globals) (ns : String) : Bindings Value := (g.tables.find? ns).getD []

/-- Writes one entry. -/
def put (g : Globals) (ns name : String) (v : Value) : Globals :=
  { g with tables := g.tables.insert ns ((g.table ns).insert name v) }

/-- Binds in the active namespace. -/
def bind (g : Globals) (name : String) (v : Value) : Except Error Globals := do
  return g.put g.active (← bindingName name) v

/-- Binds in an explicit namespace, which has to exist. -/
def bindQualified (g : Globals) (ns name : String) (v : Value) : Except Error Globals := do
  let name ← bindingName name
  if g.tables.contains ns then return g.put ns name v else throw (.namespaceNotFound ns)

/-- Binds the global that a symbol denotes. -/
def define (g : Globals) (s : Symbol) (v : Value) : Except Error Globals :=
  match s.space with
  | some ns => g.bindQualified ns s.base v
  | none => g.bind s.base v

/-- Makes sure that a namespace of that name exists. -/
def ensure (g : Globals) (ns : String) : Globals :=
  { g with tables := g.tables.insert ns (g.table ns) }

def createNamespace (g : Globals) (ns : String) : Except Error Globals := do
  return g.ensure (← bindingName ns)

/-- Makes a namespace active, creating it if needed. -/
def switchNamespace (g : Globals) (ns : String) : Except Error Globals := do
  let ns ← bindingName ns
  return { g.ensure ns with active := ns }

/-- Drops every binding and keeps the namespaces. -/
def clear (g : Globals) : Globals :=
  { g with tables := g.tables.map fun (ns, _) => (ns, []) }

theorem define_eq (g : Globals) (space : Option String) (name : String) (v : Value) :
    g.define ⟨space, name⟩ v =
      if Text.allBlank name then .error (.invalidName name)
      else if space.all g.tables.contains then .ok (g.put (space.getD g.active) (Text.trim name) v)
      else .error (.namespaceNotFound (space.getD g.active)) := by
  unfold define
  cases space with
  | none =>
    simp only [bind, bindingName_eq]
    split <;> rfl
  | some ns =>
    simp only [bindQualified, bindingName_eq, Option.all_some, Option.getD_some]
    by_cases hblank : Text.allBlank name = true
    · simp only [hblank, if_true]; rfl
    · simp only [hblank]
      by_cases hns : g.tables.contains ns = true
      · simp only [hns, if_true]; rfl
      · simp only [hns]; rfl

theorem table_put (g : Globals) (ns name k : String) (v : Value) :
    (g.put ns name v).table k = if ns = k then (g.table ns).insert name v else g.table k := by
  unfold put table
  rw [Bindings.find?_insert]
  split <;> rfl

end Globals

end LispCore
