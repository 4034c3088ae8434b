import Mathlib.Data.List.Basic
import Mathlib.Data.List.TakeDrop
import Mathlib.Data.List.TakeWhile
import LispCore.Name

/-!
# Names and their written forms

Writing a name loses the difference between the slash that divides namespace and base name and a
slash inside one of them. So parsing gives back what a text says (`Name.text_parse`), but not every
name is what its text says: `Name.Spellable` tells the names that are. They are exactly the names
that parsing gives (`Name.spellable_parse`), hence exactly those that are parsed back from their
text (`Name.parse_text_iff`).
-/

namespace LispCore

namespace Name

/-- A name that can be told from its written form. If it has a namespace, neither part is empty and
the namespace has no slash; if it has none, the base name has no slash, or its first slash is its
first or its last character. -/
def Spellable (n : Name) : Prop :=
  (∃ ns, n.space = some ns ∧ ns ≠ "" ∧ '/' ∉ ns.toList ∧ n.base ≠ "") ∨
  n.space = none ∧ ('/' ∉ n.base.toList ∨ n.base.toList.idxOf '/' = 0 ∨
    n.base.toList.idxOf '/' + 1 = n.base.toList.length)

variable {s : String} {before after : List Char}

/-! ## Parsing at the first slash -/

theorem parse_of_no_slash (h : '/' ∉ s.toList) : parse s = ⟨none, s⟩ := by
  have hrest : s.toList.dropWhile (· != '/') = [] :=
    List.dropWhile_eq_nil_iff.2 fun c hc => bne_iff_ne.2 fun hslash => h (hslash ▸ hc)
  unfold parse
  rw [List.span_eq_takeWhile_dropWhile, hrest]
  cases s.toList.takeWhile (· != '/') <;> rfl

theorem parse_of_slash (hs : s.toList = before ++ '/' :: after) (hbefore : '/' ∉ before) :
    parse s = if before = [] ∨ after = [] then ⟨none, s⟩
      else ⟨some (String.ofList before), String.ofList after⟩ := by
  have hall : ∀ c ∈ before, (c != '/') = true := fun c hc =>
    bne_iff_ne.2 fun hslash => hbefore (hslash ▸ hc)
  have hspan : s.toList.span (· != '/') = (before, '/' :: after) := by
    rw [List.span_eq_takeWhile_dropWhile, hs, List.takeWhile_append_of_pos hall,
      List.dropWhile_append_of_pos hall, List.takeWhile_cons_of_neg (by decide),
      List.dropWhile_cons_of_neg (by decide), List.append_nil]
  unfold parse
  rw [hspan]
  cases before with
  | nil => rfl
  | cons b before =>
    cases after with
    | nil => rfl
    | cons a after => rfl

theorem idxOf_slash (hs : s.toList = before ++ '/' :: after) (hbefore : '/' ∉ before) :
    s.toList.idxOf '/' = before.length := by
  rw [hs, List.idxOf_append_of_notMem hbefore, List.idxOf_cons_self, Nat.add_zero]

/-- Where the first slash of a text stands decides whether it divides the text. -/
theorem idxOf_slash_at_end_iff (hs : s.toList = before ++ '/' :: after) (hbefore : '/' ∉ before) :
    s.toList.idxOf '/' = 0 ∨ s.toList.idxOf '/' + 1 = s.toList.length ↔
      before = [] ∨ after = [] := by
  have hlength : s.toList.length = before.length + (after.length + 1) := by
    rw [hs, List.length_append, List.length_cons]
  rw [idxOf_slash hs hbefore, hlength, ← List.length_eq_zero_iff, ← List.length_eq_zero_iff]
  omega

/-! ## Written forms -/

theorem text_none (base : String) : text ⟨none, base⟩ = base := rfl

theorem toList_text_some (ns base : String) :
    (text ⟨some ns, base⟩).toList = ns.toList ++ '/' :: base.toList := by
  have hslash : "/".toList = ['/'] := rfl
  rw [text, String.toList_append, String.toList_append, List.append_assoc, hslash,
    List.singleton_append]

/-- Writing undoes parsing. -/
theorem text_parse (s : String) : (parse s).text = s := by
  by_cases hslash : '/' ∈ s.toList
  · obtain ⟨before, after, hs, hbefore⟩ := List.eq_append_cons_of_mem hslash
    rw [parse_of_slash hs hbefore]
    split
    · rfl
    · rw [← String.toList_inj, toList_text_some, String.toList_ofList, String.toList_ofList, hs]
  · rw [parse_of_no_slash hslash, text_none]

/-- Parsing gives spellable names only. -/
theorem spellable_parse (s : String) : (parse s).Spellable := by
  by_cases hslash : '/' ∈ s.toList
  · obtain ⟨before, after, hs, hbefore⟩ := List.eq_append_cons_of_mem hslash
    rw [parse_of_slash hs hbefore]
    split
    · next hend => exact .inr ⟨rfl, .inr ((idxOf_slash_at_end_iff hs hbefore).2 hend)⟩
    · next hend =>
      obtain ⟨hspace, hbase⟩ := not_or.1 hend
      refine .inl ⟨_, rfl, mt String.ofList_eq_empty_iff.1 hspace, ?_,
        mt String.ofList_eq_empty_iff.1 hbase⟩
      rwa [String.toList_ofList]
  · rw [parse_of_no_slash hslash]
    exact .inr ⟨rfl, .inl hslash⟩

theorem parse_text {n : Name} (h : n.Spellable) : parse n.text = n := by
  obtain ⟨space, base⟩ := n
  rcases h with ⟨ns, hspace, hns, hslash, hbase⟩ | ⟨hspace, hslash⟩
  · cases hspace
    have hparts : ¬ (ns.toList = [] ∨ base.toList = []) := by
      rw [String.toList_eq_nil_iff, String.toList_eq_nil_iff]
      exact not_or.2 ⟨hns, hbase⟩
    rw [parse_of_slash (toList_text_some ns base) hslash, if_neg hparts, String.ofList_toList,
      String.ofList_toList]
  · cases hspace
    rw [text_none]
    by_cases hmem : '/' ∈ base.toList
    · obtain ⟨before, after, hs, hbefore⟩ := List.eq_append_cons_of_mem hmem
      have hend := (idxOf_slash_at_end_iff hs hbefore).1 (hslash.resolve_left (not_not.2 hmem))
      rw [parse_of_slash hs hbefore, if_pos hend]
    · exact parse_of_no_slash hmem

theorem parse_text_iff {n : Name} : parse n.text = n ↔ n.Spellable :=
  ⟨fun h => h ▸ spellable_parse n.text, parse_text⟩

end Name

/-! ## Symbols and keywords -/

namespace Keyword

theorem toList_display (k : Keyword) : k.display.toList = ':' :: k.text.toList := by
  rw [display, String.toList_append]
  rfl

theorem parse_of_colon {s : String} {cs : List Char} (h : s.toList = ':' :: cs) :
    parse s = ⟨Name.parse (String.ofList cs)⟩ := by
  unfold parse
  rw [h]
  rfl

theorem parse_of_no_colon {s : String} (h : s.toList.head? ≠ some ':') :
    parse s = ⟨Name.parse s⟩ := by
  unfold parse
  split
  · next cs hcs =>
    rw [hcs] at h
    exact absurd rfl h
  · rfl

/-- The colon of a written keyword is taken off again, and no other one. -/
theorem parse_display (k : Keyword) : parse k.display = ⟨Name.parse k.text⟩ := by
  rw [parse_of_colon k.toList_display, String.ofList_toList]

theorem display_parse (s : String) :
    (parse s).display = if s.toList.head? = some ':' then s else ":" ++ s := by
  split
  · next hcolon =>
    obtain ⟨cs, hcs⟩ := List.head?_eq_some_iff.1 hcolon
    rw [parse_of_colon hcs, ← String.toList_inj, toList_display, Name.text_parse,
      String.toList_ofList, hcs]
  · next hcolon => rw [parse_of_no_colon hcolon, display, Name.text_parse]

end Keyword

/-- Parsing and writing undo each other as far as they can. Every text is written again as it was
parsed, a keyword always with its colon. A symbol or keyword is parsed back from its written form if
and only if its name is spellable: it has a namespace, which is not empty and has no slash in it,
and a base name that is not empty; or it has no namespace, and its base name has no slash or has its
first slash at its very beginning or end. -/
theorem parsing_undoes_writing :
    (∀ s, (Symbol.parse s).text = s) ∧
    (∀ s, (Keyword.parse s).display = if s.toList.head? = some ':' then s else ":" ++ s) ∧
    ∀ n : Name, (Symbol.parse (Symbol.mk n).text = ⟨n⟩ ↔ n.Spellable) ∧
      (Keyword.parse (Keyword.mk n).display = ⟨n⟩ ↔ n.Spellable) := by
  refine ⟨Name.text_parse, Keyword.display_parse, fun n => ⟨?_, ?_⟩⟩
  · rw [Symbol.parse, Symbol.mk.injEq]
    exact Name.parse_text_iff
  · rw [Keyword.parse_display, Keyword.mk.injEq]
    exact Name.parse_text_iff

end LispCore
