import LispCore.Proofs.Descent

/-!
# String literals read back

A string is printed as a literal with escapes in it, and the reader takes a literal up to its
closing quote. Escape by escape the two agree (`Text.stringBody?_escape`), whatever stands around
them, with one exception: a carriage return is printed by an escape that the reader does not know,
so that it comes back as the letter of that escape. `Text.reread s` is what becomes of a string so.
Nothing that follows the literal is touched (`Reader.reads_display_str`).
-/

namespace LispCore

/-! ## Escapes -/

namespace Text

/-- The character that is read where a literal has the escape of `c`. -/
def rereadChar (c : Char) : Char := if c = '\r' then 'r' else c

/-- What the literal of a string is read as. -/
def reread (s : String) : String := String.ofList (s.toList.map rereadChar)

theorem rereadChar_of_ne {c : Char} (h : c ≠ '\r') : rereadChar c = c := if_neg h

theorem reread_eq_self_iff {s : String} : reread s = s ↔ '\r' ∉ s.toList := by
  have hchars : reread s = s ↔ ∀ c ∈ s.toList, rereadChar c = c := by
    rw [← String.toList_inj, reread, String.toList_ofList, ← List.map_inj_left, List.map_id']
  rw [hchars]
  constructor
  · intro hall hreturn
    have hletter : rereadChar '\r' = '\r' := hall _ hreturn
    cases hletter
  · intro hreturn c hc
    refine rereadChar_of_ne ?_
    rintro rfl
    exact hreturn hc

/-- One escape in a literal stands for one character of the string. -/
theorem stringBody?_escape (c : Char) (rest : List Char) :
    stringBody? false (escape c ++ rest) =
      (stringBody? false rest).map fun body => (rereadChar c :: body.1, body.2) := by
  unfold escape
  split
  · rfl
  · rfl
  · rfl
  · rfl
  · rfl
  · next hreturn hbackslash hquote =>
    -- every other character is written as it is
    rw [rereadChar_of_ne hreturn, List.singleton_append, stringBody?, if_neg hquote,
      if_neg hbackslash]

/-- The literal ends at its own closing quote, whatever quotes the string has in it. -/
theorem stringBody?_escapes (cs rest : List Char) :
    stringBody? false (cs.foldr (fun c r => escape c ++ r) ('"' :: rest)) =
      some (cs.map rereadChar, rest) := by
  induction cs with
  | nil => rfl
  | cons c cs ih => rw [List.foldr_cons, stringBody?_escape, ih, Option.map_some, List.map_cons]

end Text

/-! ## Literals -/

theorem Value.toList_display_append (v : Value) (t : String) :
    (v.display ++ t).toList = v.printOnto t.toList := by
  rw [String.toList_append, display, String.toList_ofList, ← printOnto_append]

namespace Reader

/-- From a double quote on, only a string can be read. -/
theorem reads_quote_iff {cs tail s rest : List Char} {ending : Ending}
    (hskip : Text.skip false cs = '"' :: tail)
    (hbody : Text.stringBody? false tail = some (s, rest)) :
    Reads .form cs ending ↔ ending = .form (.str (String.ofList s)) rest := by
  constructor
  · intro h
    have hfirst {c : Char} {tail' : List Char} (h : Text.skip false cs = c :: tail') :
        c = '"' ∧ tail' = tail := by
      rw [hskip] at h
      exact ⟨(List.cons.inj h).1.symm, (List.cons.inj h).2.symm⟩
    cases h with
    | none h => rw [hskip] at h; cases h
    | @opening _ _ b _ h _ => cases b <;> cases (hfirst h).1
    | @closing _ _ b h => cases b <;> cases (hfirst h).1
    | quote h _ => cases (hfirst h).1
    | quote_none h _ => cases (hfirst h).1
    | quote_failure h _ => cases (hfirst h).1
    | string h hbody' =>
      obtain ⟨-, rfl⟩ := hfirst h
      rw [hbody] at hbody'
      cases hbody'
      rfl
    | string_open h hopen =>
      obtain ⟨-, rfl⟩ := hfirst h
      rw [hbody] at hopen
      cases hopen
    | char h _ => cases (hfirst h).1
    | char_none h _ => cases (hfirst h).1
    | word h hmark =>
      obtain ⟨rfl, -⟩ := hfirst h
      cases hmark
  · rintro rfl
    exact .string hskip hbody

/-- From a printed string on, the string is read, and then what follows it. -/
theorem reads_display_str {s t : String} {ending : Ending} :
    Reads .form ((Value.str s).display ++ t).toList ending ↔
      ending = .form (.str (Text.reread s)) t.toList := by
  rw [Value.toList_display_append]
  exact reads_quote_iff rfl (Text.stringBody?_escapes s.toList t.toList)

end Reader

theorem read_display_str (s t : String) :
    read ((Value.str s).display ++ t) = (read t).map (.str (Text.reread s) :: ·) := by
  have hform : Reader.Reads .form ((Value.str s).display ++ t).toList
      (.form (.str (Text.reread s)) t.toList) := Reader.reads_display_str.2 rfl
  have hread : read ((Value.str s).display ++ t) =
      Reader.resume (Reader.State.after {} [.str (Text.reread s)]) t.toList :=
    hform.leads [] [] (Reader.fits_nil .form _)
  rw [hread, Reader.resume_after]
  rfl

/-- Reading a printed string with any text after it comes to one end: a string, before exactly that
text. So the forms of the text are read after it, or it fails as the text does. The string is the
one that was printed but for its carriage returns, which are read as the letter `r`; so it is the
same string if and only if it has none. -/
theorem printed_string_reads_as (s t : String) :
    (∀ ending, Reader.Reads .form ((Value.str s).display ++ t).toList ending ↔
      ending = .form (.str (Text.reread s)) t.toList) ∧
    read ((Value.str s).display ++ t) = (read t).map (.str (Text.reread s) :: ·) ∧
    (Text.reread s = s ↔ '\r' ∉ s.toList) :=
  ⟨fun _ => Reader.reads_display_str, read_display_str s t, Text.reread_eq_self_iff⟩

/-- Not every string is read back: a carriage return comes back as a letter. -/
theorem carriage_return_not_read_back :
    (Value.str "\r").display = "\"\\r\"" ∧ read "\"\\r\"" = .ok [.str "r"] ∧
    ¬ ∀ s t : String,
      Reader.Reads .form ((Value.str s).display ++ t).toList (.form (.str s) t.toList) := by
  refine ⟨by decide, rfl, fun hall => ?_⟩
  have hsame := Reader.reads_display_str.1 (hall "\r" "")
  have hstring : "\r" = Text.reread "\r" := by
    injection hsame with hvalue
    injection hvalue
  exact absurd hstring (by decide)

end LispCore
