import LispCore.Text.Blank

/-!
# Names

A `Name` is a base name with an optional namespace; symbols and keywords are the two kinds of
values made of one. `Name.parse` splits a text at its first slash, `Name.text` joins it again.
Names are ordered with those without namespace first, then by namespace, then by base name.
-/

namespace LispCore

structure Name where
  space : Option String
  base : String
  deriving DecidableEq, Repr, Inhabited

namespace Name

/-- Splits at the first slash, unless nothing stands before it or nothing after it. -/
def parse (s : String) : Name :=
  match s.toList.span (· != '/') with
  | (b :: before, _ :: a :: after) =>
    ⟨some (String.ofList (b :: before)), String.ofList (a :: after)⟩
  | _ => ⟨none, s⟩

/-- The written form: `space/base`, or the base alone. -/
def text (n : Name) : String :=
  match n.space with
  | some ns => ns ++ "/" ++ n.base
  | none => n.base

def isQualified (n : Name) : Bool := n.space.isSome

/-- A name can be bound when its base is not blank. -/
def isValid (n : Name) : Bool := !Text.allBlank n.base

/-- No namespace comes before every namespace. -/
def compareSpace : Option String → Option String → Ordering
  | none, none => .eq
  | none, some _ => .lt
  | some _, none => .gt
  | some a, some b => compare a b

instance : Ord Name where
  compare a b := (compareSpace a.space b.space).then (compare a.base b.base)

/-- The names in order; equal names keep their places. -/
def sort (names : List Name) : List Name := names.mergeSort fun a b => (compare a b).isLE

/-- How many different names there are. -/
def countDistinct (names : List Name) : Nat := names.eraseDups.length

end Name

/-- A name that stands for a value. -/
structure Symbol extends Name
  deriving DecidableEq, Repr, Inhabited

namespace Symbol

def parse (s : String) : Symbol := ⟨Name.parse s⟩

/-- The symbol of that base name without a namespace. -/
def ofBase (base : String) : Symbol := ⟨none, base⟩

/-- The symbol without its namespace. -/
def relative (s : Symbol) : Symbol := ofBase s.base

/-- The symbol moved into a namespace. -/
def qualify (s : Symbol) (space : String) : Symbol := ⟨some space, s.base⟩

/-- The symbol with the blank characters around its base name removed. -/
def trimmed (s : Symbol) : Symbol := ⟨s.space, Text.trim s.base⟩

/-- The description used in listings of parameters. -/
def describe (s : Symbol) : String := "Symbol(" ++ s.text ++ ")"

end Symbol

/-- A name that stands for itself. -/
structure Keyword extends Name
  deriving DecidableEq, Repr, Inhabited

namespace Keyword

/-- Reads a keyword with or without its colon. -/
def parse (s : String) : Keyword :=
  match s.toList with
  | ':' :: cs => ⟨Name.parse (String.ofList cs)⟩
  | _ => ⟨Name.parse s⟩

/-- The written form, which starts with a colon. -/
def display (k : Keyword) : String := ":" ++ k.text

def describe (k : Keyword) : String := "Keyword(" ++ k.display ++ ")"

end Keyword

end LispCore
