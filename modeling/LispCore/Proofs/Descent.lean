import Mathlib.Data.List.TakeDrop
import LispCore.Proofs.Equality
import LispCore.Proofs.Lines

/-!
# Reading form by form

`Reader.Reads` describes reading by recursive descent: from a place in a text the next form is read,
and for that the items of a collection or the form after a quote mark, each from where the one
before it ended. A derivation is a read that comes to an end. Every read does
(`Reader.exists_reads`), for a form takes something from the text (`Reader.Reads.advances`), and
reading form after form gives what `read` gives (`Reader.readsAll_iff`). So whatever holds of every
form that is read follows the cases of `Reader.Reads`, such as that symbols are words
(`read_written`).
-/

namespace LispCore

/-! ## The parts of a text -/

namespace Text

/-- What comes after the blanks, commas and comments at the start of a text. The flag tells that the
text starts inside a comment. -/
def skip : (inComment : Bool) → List Char → List Char
  | _, [] => []
  | true, c :: cs => skip (c != '\n') cs
  | false, c :: cs =>
    if isBlank c || c = ',' then skip false cs
    else if c = ';' then skip true cs
    else c :: cs

/-- The word at the start of a text; it may be empty. -/
def word (cs : List Char) : List Char := cs.takeWhile fun c => !isDelimiter c

def afterWord (cs : List Char) : List Char := cs.dropWhile fun c => !isDelimiter c

/-- The characters of a string literal up to its closing quote, and what comes after it. The flag
tells that the text starts with an escaped character. -/
def stringBody? : (escaped : Bool) → List Char → Option (List Char × List Char)
  | _, [] => none
  | true, c :: cs => (stringBody? false cs).map fun (s, rest) => (Lexer.unescape c :: s, rest)
  | false, c :: cs =>
    if c = '"' then some ([], cs)
    else if c = '\\' then stringBody? true cs
    else (stringBody? false cs).map fun (s, rest) => (c :: s, rest)

/-- Characters that begin something else than a bare word. -/
def isMark (c : Char) : Bool := "()[]'\"\\".toList.contains c

theorem skip_suffix (inComment : Bool) (cs : List Char) : skip inComment cs <:+ cs := by
  induction cs generalizing inComment with
  | nil => cases inComment <;> exact List.suffix_rfl
  | cons c cs ih =>
    have hrest (inComment : Bool) : skip inComment cs <:+ c :: cs :=
      (ih inComment).trans (List.suffix_cons c cs)
    cases inComment with
    | true => exact hrest _
    | false =>
      unfold skip
      split
      · exact hrest false
      split
      · exact hrest true
      · exact List.suffix_rfl

/-- What is left starts with nothing to skip. -/
theorem skip_idem (inComment : Bool) (cs : List Char) :
    skip false (skip inComment cs) = skip inComment cs := by
  induction cs generalizing inComment with
  | nil => cases inComment <;> rfl
  | cons c cs ih =>
    cases inComment with
    | true => exact ih _
    | false =>
      rw [skip]
      split
      · exact ih false
      split
      · exact ih true
      · next hblank hcomment => rw [skip, if_neg hblank, if_neg hcomment]

theorem skip_skipped {inComment : Bool} {cs rest : List Char} (h : skip inComment cs = rest) :
    skip false rest = rest := by rw [← h, skip_idem]

theorem word_append (cs : List Char) : word cs ++ afterWord cs = cs :=
  List.takeWhile_append_dropWhile

theorem word_cons {c : Char} (hc : isDelimiter c = false) (tail : List Char) :
    word (c :: tail) = c :: word tail := List.takeWhile_cons_of_pos (by rw [hc]; rfl)

theorem afterWord_cons {c : Char} (hc : isDelimiter c = false) (tail : List Char) :
    afterWord (c :: tail) = afterWord tail := List.dropWhile_cons_of_pos (by rw [hc]; rfl)

theorem isDelimiter_of_mem_word {c : Char} {cs : List Char} (h : c ∈ word cs) :
    isDelimiter c = false := by
  have hall := List.all_takeWhile (l := cs) (p := fun c => !isDelimiter c)
  simpa using List.all_eq_true.1 hall c h

theorem ended_afterWord (cs : List Char) : Lexer.Ended (afterWord cs) := by
  intro c hc
  have hhead := List.head?_dropWhile_not (fun c => !isDelimiter c) cs
  rw [show (cs.dropWhile fun c => !isDelimiter c).head? = some c from hc] at hhead
  simpa using hhead

theorem length_skip_le (inComment : Bool) (cs : List Char) :
    (skip inComment cs).length ≤ cs.length := (skip_suffix inComment cs).length_le

/-- A character that stays is neither blank nor a comma, and it begins no comment. -/
theorem not_skipped {cs tail : List Char} {c : Char} (h : skip false cs = c :: tail) :
    isBlank c = false ∧ c ≠ ',' ∧ c ≠ ';' := by
  have hstays := skip_skipped h
  have hshort (inComment : Bool) : skip inComment tail ≠ c :: tail := by
    intro hsame
    have hle := length_skip_le inComment tail
    rw [hsame, List.length_cons] at hle
    omega
  rw [skip] at hstays
  split at hstays
  · exact absurd hstays (hshort false)
  split at hstays
  · exact absurd hstays (hshort true)
  · next hblank hcomment =>
    simp only [Bool.or_eq_true, decide_eq_true_eq, not_or, Bool.not_eq_true] at hblank
    exact ⟨hblank.1, hblank.2, hcomment⟩

/-- Whatever stays and is no mark begins a word: no delimiter is left. -/
theorem isDelimiter_of_skip {cs tail : List Char} {c : Char} (h : skip false cs = c :: tail)
    (hmark : isMark c = false) : isDelimiter c = false := by
  obtain ⟨hblank, hcomma, hcomment⟩ := not_skipped h
  have hdelimiters : ∀ d ∈ "()[],;\"".toList, d = ',' ∨ d = ';' ∨ isMark d = true := by decide
  rw [isDelimiter, hblank, Bool.false_or, List.contains_eq_mem, decide_eq_false_iff_not]
  intro hmem
  rcases hdelimiters c hmem with rfl | rfl | hc
  · exact hcomma rfl
  · exact hcomment rfl
  · rw [hmark] at hc
    cases hc

theorem stringBody?_suffix {escaped : Bool} {cs s rest : List Char}
    (h : stringBody? escaped cs = some (s, rest)) : rest <:+ cs := by
  induction cs generalizing escaped s with
  | nil => cases escaped <;> cases h
  | cons c cs ih =>
    have hlater {escaped : Bool} {s : List Char} (h : stringBody? escaped cs = some (s, rest)) :
        rest <:+ c :: cs := (ih h).trans (List.suffix_cons c cs)
    cases escaped with
    | true =>
      obtain ⟨body, hbody, hp⟩ := Option.map_eq_some_iff.1 h
      cases hp
      exact hlater hbody
    | false =>
      rw [stringBody?] at h
      split at h
      · obtain ⟨-, rfl⟩ := Prod.mk.inj (Option.some.inj h)
        exact List.suffix_cons c cs
      split at h
      · exact hlater h
      · obtain ⟨body, hbody, hp⟩ := Option.map_eq_some_iff.1 h
        cases hp
        exact hlater hbody

/-- The rest comes later in the text: something stands before it. -/
def Advances (cs rest : List Char) : Prop := ∃ taken, taken ≠ [] ∧ cs = taken ++ rest

variable {cs mid rest tail : List Char} {c : Char}

theorem advances_cons (h : rest <:+ tail) : Advances (c :: tail) rest := by
  obtain ⟨taken, rfl⟩ := h
  exact ⟨c :: taken, List.cons_ne_nil c taken, rfl⟩

theorem Advances.of_suffix (h : Advances mid rest) (hmid : mid <:+ cs) : Advances cs rest := by
  obtain ⟨taken, hne, rfl⟩ := h
  obtain ⟨before, rfl⟩ := hmid
  exact ⟨before ++ taken, List.append_ne_nil_of_right_ne_nil before hne,
    (List.append_assoc before taken rest).symm⟩

theorem Advances.suffix (h : Advances cs rest) : rest <:+ cs := by
  obtain ⟨taken, -, rfl⟩ := h
  exact List.suffix_append taken rest

theorem Advances.length_lt (h : Advances cs rest) : rest.length < cs.length := by
  obtain ⟨taken, hne, rfl⟩ := h
  rw [List.length_append]
  have hpos := List.length_pos_iff.2 hne
  omega

theorem advances_of_skip (h : skip false cs = c :: tail) (hrest : rest <:+ tail) :
    Advances cs rest :=
  (advances_cons hrest).of_suffix (h ▸ skip_suffix false cs)

end Text

/-! ## The tokens at the start of a text -/

theorem Token.ofCharName_cases (cs : List Char) :
    (∃ c, Token.ofCharName cs = .atom (.char c)) ∨
      Token.ofCharName cs = .fault .emptyCharacter := by
  unfold Token.ofCharName
  dsimp only
  split
  · exact .inl ⟨_, rfl⟩
  split
  · exact .inl ⟨_, rfl⟩
  split
  · exact .inl ⟨_, rfl⟩
  split
  · exact .inl ⟨_, rfl⟩
  · exact .inr rfl

def Bracket.opening : Bracket → Char
  | round => '('
  | square => '['

theorem Text.isMark_cases {c : Char} (h : isMark c = true) :
    (∃ b : Bracket, c = b.opening) ∨ (∃ b : Bracket, c = b.close) ∨ c = '\'' ∨ c = '"' ∨
      c = '\\' := by
  have hmarks : c = '(' ∨ c = ')' ∨ c = '[' ∨ c = ']' ∨ c = '\'' ∨ c = '"' ∨ c = '\\' := by
    simpa [isMark] using h
  rcases hmarks with rfl | rfl | rfl | rfl | hother
  · exact .inl ⟨.round, rfl⟩
  · exact .inr (.inl ⟨.round, rfl⟩)
  · exact .inl ⟨.square, rfl⟩
  · exact .inr (.inl ⟨.square, rfl⟩)
  · exact .inr (.inr hother)

namespace Lexer

variable {cs tail rest : List Char}

/-- Lexing skips what `Text.skip` does. -/
theorem finish_skip (inComment : Bool) (cs : List Char) :
    finish (cs.foldl step ⟨bif inComment then .comment else .between, []⟩) =
      scan [] (Text.skip inComment cs) := by
  induction cs generalizing inComment with
  | nil => cases inComment <;> rfl
  | cons c cs ih =>
    cases inComment with
    | true =>
      rw [Text.skip, ← ih, List.foldl_cons]
      by_cases hc : c = '\n'
      · subst hc
        rfl
      · rw [bne_iff_ne.2 hc]
        simp only [cond_true, step, if_neg hc]
    | false =>
      rw [Text.skip]
      split
      · next hblank =>
        rw [← ih, List.foldl_cons]
        simp only [cond_false, step, start, if_pos hblank]
      split
      · next hblank hcomment =>
        rw [← ih, List.foldl_cons]
        simp only [cond_false, cond_true, step, start, if_neg hblank, if_pos hcomment]
      · rfl

theorem run_skip (cs : List Char) : run (Text.skip false cs) = run cs :=
  congrArg List.reverse (finish_skip false cs).symm

theorem run_of_scan {token : Token} (h : scan [] cs = scan [token] rest) :
    run cs = token :: run rest := by
  have hrun : run cs = (scan [] cs).reverse := rfl
  rw [hrun, h, reverse_scan]
  rfl

theorem run_opening (b : Bracket) (tail : List Char) :
    run (b.opening :: tail) = .opening b :: run tail := by
  cases b <;> exact run_of_scan rfl

theorem run_closing (b : Bracket) (tail : List Char) :
    run (b.close :: tail) = .closing b :: run tail := by
  cases b <;> exact run_of_scan rfl

theorem run_quoteMark (tail : List Char) : run ('\'' :: tail) = .quoteMark :: run tail :=
  run_of_scan rfl

theorem run_word {c : Char} (hc : Text.isDelimiter c = false) (hmark : Text.isMark c = false)
    (tail : List Char) : run (c :: tail) =
      .atom (Token.ofWord (Text.word (c :: tail))) :: run (Text.afterWord (c :: tail)) := by
  have hword : Text.word (c :: tail) = c :: Text.word tail := Text.word_cons hc tail
  have hne (d : Char) (hd : Text.isMark d = true) : c ≠ d := by
    rintro rfl
    rw [hmark] at hd
    cases hd
  refine run_of_scan ?_
  rw [← scan_word (Text.word (c :: tail)) (by rw [hword]; exact List.cons_ne_nil _ _)
    (fun d hd => Text.isDelimiter_of_mem_word hd) ?_ (Text.ended_afterWord _), Text.word_append]
  rw [hword]
  rintro _ ⟨⟩
  exact ⟨hne '\'' rfl, hne '\\' rfl⟩

theorem run_charName (tail : List Char) : run ('\\' :: tail) =
    Token.ofCharName (Text.word tail) :: run (Text.afterWord tail) := by
  refine run_of_scan ?_
  rw [← scan_charName (fun d hd => Text.isDelimiter_of_mem_word hd) (Text.ended_afterWord tail),
    Text.word_append]

/-- Inside a string, perhaps after a backslash. -/
def Mode.ofString (escaped : Bool) (seen : List Char) : Mode :=
  bif escaped then .escape seen else .string seen

theorem finish_stringBody (escaped : Bool) (cs seen : List Char) :
    finish (cs.foldl step ⟨.ofString escaped seen, []⟩) =
      (Text.stringBody? escaped cs).elim [.fault .unterminatedString] fun body =>
        scan [.atom (.str (String.ofList (seen.reverse ++ body.1)))] body.2 := by
  induction cs generalizing escaped seen with
  | nil => cases escaped <;> rfl
  | cons c cs ih =>
    have hmore (d : Char) : finish (cs.foldl step ⟨.ofString false (d :: seen), []⟩) =
        ((Text.stringBody? false cs).map fun (s, rest) => (d :: s, rest)).elim
          [.fault .unterminatedString] fun body =>
            scan [.atom (.str (String.ofList (seen.reverse ++ body.1)))] body.2 := by
      rw [ih]
      cases Text.stringBody? false cs with
      | none => rfl
      | some body => simp
    rw [List.foldl_cons]
    cases escaped with
    | true => exact hmore (unescape c)
    | false =>
      simp only [Mode.ofString, cond_false, step, Text.stringBody?]
      by_cases hquote : c = '"'
      · rw [if_pos hquote, if_pos hquote, Option.elim_some, List.append_nil]
        rfl
      rw [if_neg hquote, if_neg hquote]
      by_cases hescape : c = '\\'
      · rw [if_pos hescape, if_pos hescape]
        exact ih true seen
      · rw [if_neg hescape, if_neg hescape]
        exact hmore c

theorem run_string {s : List Char} (h : Text.stringBody? false tail = some (s, rest)) :
    run ('"' :: tail) = .atom (.str (String.ofList s)) :: run rest := by
  have hbody := finish_stringBody false tail []
  rw [h] at hbody
  exact run_of_scan hbody

theorem run_string_open (h : Text.stringBody? false tail = none) :
    run ('"' :: tail) = [.fault .unterminatedString] := by
  have hbody := finish_stringBody false tail []
  rw [h] at hbody
  exact congrArg List.reverse hbody

end Lexer

/-! ## Reading by descent -/

namespace Reader

/-- Why a read fails: for one of the faults of a text, or because the item of a collection that has
begun is no form. -/
inductive Failure where
  | fault (e : ReadError)
  | noItem

/-- How a read ends: with a form, before the rest of the text; with none, since the text is over; or
it fails. -/
inductive Ending where
  | form (v : Value) (rest : List Char)
  | none
  | failure (f : Failure)

/-- What is read: the next form, or the collection that has been opened and has these items so far,
last first. -/
inductive Goal where
  | form
  | collection (b : Bracket) (items : List Value)

/-- Reading from a place in a text to an end. -/
inductive Reads : Goal → List Char → Ending → Prop where
  | none {cs : List Char} : Text.skip false cs = [] → Reads .form cs .none
  | opening {cs tail : List Char} {b : Bracket} {ending : Ending} :
    Text.skip false cs = b.opening :: tail → Reads (.collection b []) tail ending →
      Reads .form cs ending
  | closing {cs tail : List Char} {b : Bracket} : Text.skip false cs = b.close :: tail →
    Reads .form cs (.failure (.fault (.unexpectedClose b)))
  | quote {cs tail rest : List Char} {v : Value} : Text.skip false cs = '\'' :: tail →
    Reads .form tail (.form v rest) → Reads .form cs (.form (quoteForm v) rest)
  | quote_none {cs tail : List Char} : Text.skip false cs = '\'' :: tail →
    Reads .form tail .none → Reads .form cs (.failure (.fault .quoteNeedsForm))
  | quote_failure {cs tail : List Char} {f : Failure} : Text.skip false cs = '\'' :: tail →
    Reads .form tail (.failure f) → Reads .form cs (.failure f)
  | string {cs tail s rest : List Char} : Text.skip false cs = '"' :: tail →
    Text.stringBody? false tail = some (s, rest) →
      Reads .form cs (.form (.str (String.ofList s)) rest)
  | string_open {cs tail : List Char} : Text.skip false cs = '"' :: tail →
    Text.stringBody? false tail = .none → Reads .form cs (.failure (.fault .unterminatedString))
  | char {cs tail : List Char} {c : Char} : Text.skip false cs = '\\' :: tail →
    Token.ofCharName (Text.word tail) = .atom (.char c) →
      Reads .form cs (.form (.char c) (Text.afterWord tail))
  | char_none {cs tail : List Char} : Text.skip false cs = '\\' :: tail →
    Token.ofCharName (Text.word tail) = .fault .emptyCharacter →
      Reads .form cs (.failure (.fault .emptyCharacter))
  | word {cs tail : List Char} {c : Char} : Text.skip false cs = c :: tail →
    Text.isMark c = false →
      Reads .form cs (.form (Token.ofWord (Text.word (c :: tail))) (Text.afterWord (c :: tail)))
  | close {cs tail : List Char} {b : Bracket} {items : List Value} :
    Text.skip false cs = b.close :: tail →
      Reads (.collection b items) cs (.form (collect b items) tail)
  | unclosed {cs : List Char} {b : Bracket} {items : List Value} : Text.skip false cs = [] →
    Reads (.collection b items) cs (.failure (.fault (.unterminatedCollection b)))
  | item {cs tail rest : List Char} {c : Char} {b : Bracket} {items : List Value} {v : Value}
      {ending : Ending} : Text.skip false cs = c :: tail → c ≠ b.close →
    Reads .form (c :: tail) (.form v rest) → Reads (.collection b (v :: items)) rest ending →
      Reads (.collection b items) cs ending
  | item_none {cs tail : List Char} {c : Char} {b : Bracket} {items : List Value} :
    Text.skip false cs = c :: tail → c ≠ b.close → Reads .form (c :: tail) .none →
      Reads (.collection b items) cs (.failure .noItem)
  | item_failure {cs tail : List Char} {c : Char} {b : Bracket} {items : List Value}
      {f : Failure} : Text.skip false cs = c :: tail → c ≠ b.close →
    Reads .form (c :: tail) (.failure f) → Reads (.collection b items) cs (.failure f)

/-- Reading form after form from a place in a text, with the forms and what is left of the text, or
a failure. -/
inductive ReadsAll : List Char → Except Failure (List Value × List Char) → Prop where
  | done {cs : List Char} : Reads .form cs .none → ReadsAll cs (.ok ([], Text.skip false cs))
  | failure {cs : List Char} {f : Failure} : Reads .form cs (.failure f) → ReadsAll cs (.error f)
  | form {cs rest : List Char} {v : Value} {r : Except Failure (List Value × List Char)} :
    Reads .form cs (.form v rest) → ReadsAll rest r →
      ReadsAll cs (r.map fun (forms, left) => (v :: forms, left))

/-! ## Reads come to an end -/

variable {g : Goal} {cs : List Char} {ending : Ending}

def Ending.Advances (cs : List Char) : Ending → Prop
  | form _ rest => Text.Advances cs rest
  | _ => True

theorem Ending.Advances.of_suffix {mid : List Char} (h : ending.Advances mid)
    (hmid : mid <:+ cs) : ending.Advances cs := by
  cases ending with
  | form v rest => exact Text.Advances.of_suffix h hmid
  | none => trivial
  | failure f => trivial

/-- A form takes something from the text. -/
theorem Reads.advances (h : Reads g cs ending) : ending.Advances cs := by
  have htail {cs tail : List Char} {c : Char} (hskip : Text.skip false cs = c :: tail) :
      tail <:+ cs := (Text.advances_of_skip hskip List.suffix_rfl).suffix
  induction h with
  | opening hskip _ ih => exact ih.of_suffix (htail hskip)
  | quote hskip _ ih => exact ih.of_suffix (htail hskip)
  | string hskip hbody => exact Text.advances_of_skip hskip (Text.stringBody?_suffix hbody)
  | char hskip _ => exact Text.advances_of_skip hskip (List.dropWhile_suffix _)
  | word hskip hmark =>
    -- what is no mark stands in the word, so that the word is not empty
    have hc := Text.isDelimiter_of_skip hskip hmark
    rw [Ending.Advances, Text.afterWord_cons hc]
    exact Text.advances_of_skip hskip (List.dropWhile_suffix _)
  | close hskip => exact Text.advances_of_skip hskip List.suffix_rfl
  | item hskip _ _ _ ihitem ihrest =>
    have hrest := ihitem.suffix.trans (hskip ▸ Text.skip_suffix false _)
    exact ihrest.of_suffix hrest
  | _ => trivial

/-- The next form, if all reads of shorter texts end. -/
theorem exists_reads_form
    (hshorter : ∀ (g : Goal) (rest : List Char), rest.length < cs.length →
      ∃ ending, Reads g rest ending) : ∃ ending, Reads .form cs ending := by
  cases hskip : Text.skip false cs with
  | nil => exact ⟨_, .none hskip⟩
  | cons c tail =>
    have htail (g : Goal) : ∃ ending, Reads g tail ending :=
      hshorter g tail (Text.advances_of_skip hskip List.suffix_rfl).length_lt
    cases hmark : Text.isMark c with
    | false => exact ⟨_, .word hskip hmark⟩
    | true =>
      rcases Text.isMark_cases hmark with ⟨b, rfl⟩ | ⟨b, rfl⟩ | rfl | rfl | rfl
      · obtain ⟨ending, hitems⟩ := htail (.collection b [])
        exact ⟨_, .opening hskip hitems⟩
      · exact ⟨_, .closing hskip⟩
      · obtain ⟨ending, hform⟩ := htail .form
        cases ending with
        | form v rest => exact ⟨_, .quote hskip hform⟩
        | none => exact ⟨_, .quote_none hskip hform⟩
        | failure f => exact ⟨_, .quote_failure hskip hform⟩
      · cases hbody : Text.stringBody? false tail with
        | none => exact ⟨_, .string_open hskip hbody⟩
        | some body => exact ⟨_, .string hskip hbody⟩
      · rcases Token.ofCharName_cases (Text.word tail) with ⟨c, hname⟩ | hname
        · exact ⟨_, .char hskip hname⟩
        · exact ⟨_, .char_none hskip hname⟩

/-- The rest of a collection, if all reads of shorter texts end. -/
theorem exists_reads_collection
    (hshorter : ∀ (g : Goal) (rest : List Char), rest.length < cs.length →
      ∃ ending, Reads g rest ending) (b : Bracket) (items : List Value) :
    ∃ ending, Reads (.collection b items) cs ending := by
  cases hskip : Text.skip false cs with
  | nil => exact ⟨_, .unclosed hskip⟩
  | cons c tail =>
    by_cases hclose : c = b.close
    · subst hclose
      exact ⟨_, .close hskip⟩
    · have hle : (c :: tail).length ≤ cs.length := hskip ▸ Text.length_skip_le false cs
      obtain ⟨ending, hitem⟩ := exists_reads_form fun g rest hlt =>
        hshorter g rest (Nat.lt_of_lt_of_le hlt hle)
      cases ending with
      | form v rest =>
        have hrest : rest.length < (c :: tail).length := Text.Advances.length_lt hitem.advances
        obtain ⟨ending, hitems⟩ :=
          hshorter (.collection b (v :: items)) rest (Nat.lt_of_lt_of_le hrest hle)
        exact ⟨_, .item hskip hclose hitem hitems⟩
      | none => exact ⟨_, .item_none hskip hclose hitem⟩
      | failure f => exact ⟨_, .item_failure hskip hclose hitem⟩

/-- Every read comes to an end. -/
theorem exists_reads (g : Goal) (cs : List Char) : ∃ ending, Reads g cs ending := by
  induction hn : cs.length using Nat.strongRecOn generalizing g cs with
  | ind n ih =>
    subst hn
    have hshorter (g : Goal) (rest : List Char) (hlt : rest.length < cs.length) :
        ∃ ending, Reads g rest ending := ih rest.length hlt g rest rfl
    cases g with
    | form => exact exists_reads_form hshorter
    | collection b items => exact exists_reads_collection hshorter b items

theorem exists_readsAll (cs : List Char) : ∃ r, ReadsAll cs r := by
  induction hn : cs.length using Nat.strongRecOn generalizing cs with
  | ind n ih =>
    subst hn
    obtain ⟨ending, hform⟩ := exists_reads .form cs
    cases ending with
    | form v rest =>
      have hrest : rest.length < cs.length := Text.Advances.length_lt hform.advances
      obtain ⟨r, hforms⟩ := ih rest.length hrest rest rfl
      exact ⟨_, .form hform hforms⟩
    | none => exact ⟨_, .done hform⟩
    | failure f => exact ⟨_, .failure hform⟩

/-! ## What is read -/

theorem resume_skip (s : State) (cs : List Char) : resume s (Text.skip false cs) = resume s cs := by
  rw [resume, Lexer.run_skip, resume]

/-- Reading starts with the first token. -/
theorem resume_cons {mid rest : List Char} {token : Token} (hskip : Text.skip false cs = mid)
    (hrun : Lexer.run mid = token :: Lexer.run rest) (s : State) :
    resume s cs = step s token >>= fun next => resume next rest := by
  rw [← resume_skip, hskip, resume, hrun, List.foldlM_cons, bind_assoc]
  rfl

theorem resume_fault {tokens : List Token} {e : ReadError}
    (hrun : Lexer.run (Text.skip false cs) = .fault e :: tokens) (s : State) :
    resume s cs = .error e := by
  rw [← resume_skip, resume, hrun]
  rfl

/-- What may be read with that much open around it: the next form only if the innermost
collection does not end there. -/
def Goal.Fits (stack : List Pending) (cs : List Char) : Goal → Prop
  | form => ∀ b items, stack.head? = some (.collection b items) →
    ∀ tail, Text.skip false cs ≠ b.close :: tail
  | collection _ _ => True

theorem step_closing {stack : List Pending} {tail : List Char} {b : Bracket}
    (hfits : Goal.form.Fits stack cs) (hskip : Text.skip false cs = b.close :: tail)
    (forms : List Value) : step ⟨stack, forms⟩ (.closing b) = .error (.unexpectedClose b) := by
  cases stack with
  | nil => rfl
  | cons p stack =>
    cases p with
    | quoteMark => rfl
    | collection b' items =>
      have hb : b ≠ b' := fun h => hfits b' items rfl tail (h ▸ hskip)
      exact if_neg hb

theorem fits_nil (g : Goal) (cs : List Char) : g.Fits [] cs := by
  cases g with
  | form => rintro _ _ ⟨⟩
  | collection b items => trivial

theorem fits_quoteMark (stack : List Pending) (cs : List Char) :
    Goal.form.Fits (.quoteMark :: stack) cs := by
  rintro _ _ ⟨⟩

theorem fits_item {tail : List Char} {c : Char} {b : Bracket}
    (hskip : Text.skip false cs = c :: tail) (hclose : c ≠ b.close) (items : List Value)
    (stack : List Pending) : Goal.form.Fits (.collection b items :: stack) (c :: tail) := by
  rintro _ _ ⟨⟩ tail' hend
  rw [Text.skip_skipped hskip] at hend
  exact hclose (List.cons.inj hend).1

def Goal.pending : Goal → List Pending
  | form => []
  | collection b items => [.collection b items]

def Failure.Stops (r : Except ReadError (List Value)) : Failure → Prop
  | fault e => r = .error e
  | noItem => False

/-- What the whole text is read as, if with that much open around it a read ends so. -/
def Ending.Leads (stack : List Pending) (forms : List Value) (r : Except ReadError (List Value)) :
    Ending → Prop
  | form v rest => r = resume (push forms stack v) rest
  | none => r = finish ⟨stack, forms⟩
  | failure f => f.Stops r

/-- Only a text that is over has no next form. -/
theorem Reads.skip_of_none (h : Reads g cs ending) (hending : ending = .none) :
    g = .form ∧ Text.skip false cs = [] := by
  induction h with
  | none hskip => exact ⟨rfl, hskip⟩
  | opening _ _ ih => cases (ih hending).1
  | item _ _ _ _ _ ih => cases (ih hending).1
  | _ => cases hending

/-- Every read is a part of reading the whole text. -/
theorem Reads.leads (h : Reads g cs ending) (stack : List Pending) (forms : List Value)
    (hfits : g.Fits stack cs) :
    ending.Leads stack forms (resume ⟨g.pending ++ stack, forms⟩ cs) := by
  -- by induction on the read, whatever is open around it; a form inside has its own surroundings
  induction h generalizing stack with
  | none hskip =>
    rw [← resume_skip, hskip]
    rfl
  | opening hskip _ ih =>
    rw [resume_cons hskip (Lexer.run_opening _ _)]
    exact ih stack trivial
  | closing hskip =>
    rw [resume_cons hskip (Lexer.run_closing _ _)]
    exact congrArg (· >>= _) (step_closing hfits hskip forms)
  | quote hskip _ ih =>
    rw [resume_cons hskip (Lexer.run_quoteMark _)]
    exact ih (.quoteMark :: stack) (fits_quoteMark stack _)
  | quote_none hskip _ ih =>
    rw [resume_cons hskip (Lexer.run_quoteMark _)]
    exact ih (.quoteMark :: stack) (fits_quoteMark stack _)
  | quote_failure hskip _ ih =>
    rw [resume_cons hskip (Lexer.run_quoteMark _)]
    exact ih (.quoteMark :: stack) (fits_quoteMark stack _)
  | string hskip hbody =>
    rw [resume_cons hskip (Lexer.run_string hbody)]
    rfl
  | string_open hskip hbody => exact resume_fault (hskip ▸ Lexer.run_string_open hbody) _
  | @char cs tail c hskip hname =>
    have hrun := Lexer.run_charName tail
    rw [hname] at hrun
    rw [resume_cons hskip hrun]
    rfl
  | @char_none cs tail hskip hname =>
    have hrun := Lexer.run_charName tail
    rw [hname, ← hskip] at hrun
    exact resume_fault hrun _
  | word hskip hmark =>
    rw [resume_cons hskip (Lexer.run_word (Text.isDelimiter_of_skip hskip hmark) hmark _)]
    rfl
  | close hskip =>
    rw [resume_cons hskip (Lexer.run_closing _ _)]
    exact congrArg (· >>= _) (if_pos rfl)
  | unclosed hskip =>
    rw [← resume_skip, hskip]
    rfl
  | @item cs tail rest c b items v ending hskip hclose _ _ ihitem ihrest =>
    have hitem : resume ⟨.collection b items :: stack, forms⟩ (c :: tail) =
        resume ⟨.collection b (v :: items) :: stack, forms⟩ rest :=
      ihitem (.collection b items :: stack) (fits_item hskip hclose items stack)
    have hcs : resume ⟨.collection b items :: stack, forms⟩ cs =
        resume ⟨.collection b (v :: items) :: stack, forms⟩ rest := by
      rw [← hitem, ← hskip, resume_skip]
    exact hcs ▸ ihrest stack trivial
  | item_none hskip _ hitem _ =>
    have hover := (hitem.skip_of_none rfl).2
    rw [Text.skip_skipped hskip] at hover
    cases hover
  | item_failure hskip hclose _ ih =>
    rw [← resume_skip, hskip]
    exact ih (.collection _ _ :: stack) (fits_item hskip hclose _ stack)

theorem Reads.fault {f : Failure} (h : Reads g cs (.failure f)) : ∃ e, f = .fault e := by
  have hstops : f.Stops _ := h.leads [] [] (fits_nil g cs)
  cases f with
  | fault e => exact ⟨e, rfl⟩
  | noItem => cases hstops

/-- What reading all of a text comes to: nothing of it is left, or it has a fault. -/
def outcome : Except ReadError (List Value) → Except Failure (List Value × List Char)
  | .ok forms => .ok (forms, [])
  | .error e => .error (.fault e)

theorem ReadsAll.eq_outcome {r : Except Failure (List Value × List Char)} (h : ReadsAll cs r) :
    r = outcome (resume {} cs) := by
  induction h with
  | @done cs hform =>
    have hresume : resume {} cs = finish {} := hform.leads [] [] (fits_nil .form cs)
    rw [hresume, (hform.skip_of_none rfl).2]
    rfl
  | @failure cs f hform =>
    obtain ⟨e, rfl⟩ := hform.fault
    have hresume : resume {} cs = .error e := hform.leads [] [] (fits_nil .form cs)
    rw [hresume]
    rfl
  | @form cs rest v r hform _ ih =>
    have hresume : resume {} cs = resume (State.after {} [v]) rest :=
      hform.leads [] [] (fits_nil .form cs)
    rw [hresume, resume_after, ih]
    cases resume {} rest <;> rfl

theorem readsAll_iff {r : Except Failure (List Value × List Char)} :
    ReadsAll cs r ↔ r = outcome (resume {} cs) := by
  refine ⟨ReadsAll.eq_outcome, ?_⟩
  rintro rfl
  obtain ⟨r, h⟩ := exists_readsAll cs
  exact h.eq_outcome ▸ h

end Reader

/-! ## Written symbols -/

/-- A text is a word: it is something, without any blank. -/
def Text.IsWord (text : String) : Prop := text ≠ "" ∧ ∀ c ∈ text.toList, isBlank c = false

/-- A symbol as it stands in a text. -/
structure Symbol.Written (s : Symbol) : Prop where
  base : Text.IsWord s.base
  space : ∀ space ∈ s.space, Text.IsWord space

theorem Symbol.Written.ofBase {name : String} (h : Text.IsWord name) :
    (Symbol.ofBase name).Written := ⟨h, nofun⟩

/-- Both parts of a word that has a namespace are words. -/
theorem Symbol.Written.parse {cs : List Char} (hne : cs ≠ [])
    (hcs : ∀ c ∈ cs, Text.isBlank c = false) : (Symbol.parse (String.ofList cs)).Written := by
  have hword {part : List Char} (hne : part ≠ []) (hsub : ∀ c ∈ part, c ∈ cs) :
      Text.IsWord (String.ofList part) := by
    refine ⟨fun hempty => hne (String.ofList_eq_empty_iff.1 hempty), fun c hc => ?_⟩
    rw [String.toList_ofList] at hc
    exact hcs c (hsub c hc)
  unfold Symbol.parse Name.parse
  rw [String.toList_ofList]
  split
  · next b before slash a after hspan =>
    rw [List.span_eq_takeWhile_dropWhile, Prod.mk.injEq] at hspan
    have hbase : ∀ c ∈ a :: after, c ∈ cs := fun c hc =>
      (List.dropWhile_suffix (· != '/')).mem (hspan.2 ▸ List.mem_cons_of_mem slash hc)
    have hspace : ∀ c ∈ b :: before, c ∈ cs := fun c hc =>
      (List.takeWhile_prefix (· != '/')).mem (hspan.1 ▸ hc)
    refine ⟨hword (List.cons_ne_nil a after) hbase, ?_⟩
    rintro _ ⟨⟩
    exact hword (List.cons_ne_nil b before) hspace
  · exact ⟨hword hne fun _ hc => hc, nofun⟩

/-- What a text can say: no function, and no symbol but a written one. -/
def Value.IsWritten : Value → Prop
  | symbol s => s.Written
  | fn _ | native _ | foreign _ => False
  | _ => True

theorem Token.ofWord_written {cs : List Char} (hne : cs ≠ [])
    (hcs : ∀ c ∈ cs, Text.isBlank c = false) : (ofWord cs).Throughout Value.IsWritten := by
  have hatom {v : Value} (hv : v.isCollection = false) (h : v.IsWritten) :
      v.Throughout Value.IsWritten := (Value.throughout_atom hv).2 h
  unfold ofWord
  dsimp only
  split
  · exact hatom rfl trivial
  split
  · exact hatom rfl trivial
  split
  · exact hatom rfl trivial
  split
  · exact hatom rfl trivial
  split
  · exact hatom rfl trivial
  split
  · exact hatom rfl trivial
  · exact hatom rfl (.parse hne hcs)

namespace Reader

variable {g : Goal} {cs : List Char} {ending : Ending}

def Goal.items : Goal → List Value
  | form => []
  | collection _ items => items

def Ending.Written : Ending → Prop
  | form v _ => v.Throughout Value.IsWritten
  | _ => True

theorem quoteForm_written {v : Value} (hv : v.Throughout Value.IsWritten) :
    (quoteForm v).Throughout Value.IsWritten := by
  have hquote : (Value.symbol (.ofBase "quote")).Throughout Value.IsWritten :=
    (Value.throughout_atom rfl).2 (Symbol.Written.ofBase ⟨by decide, by decide⟩)
  exact Value.throughout_list.2
    ⟨trivial, List.forall_mem_cons.2 ⟨hquote, List.forall_mem_singleton.2 hv⟩⟩

theorem collect_written (b : Bracket) {items : List Value}
    (hitems : ∀ v ∈ items, v.Throughout Value.IsWritten) :
    (collect b items).Throughout Value.IsWritten := by
  have hreverse : ∀ v ∈ items.reverse, v.Throughout Value.IsWritten :=
    fun v hv => hitems v (List.mem_reverse.1 hv)
  cases b with
  | round => exact Value.throughout_list.2 ⟨trivial, hreverse⟩
  | square => exact Value.throughout_vector.2 ⟨trivial, hreverse⟩

theorem Reads.written (h : Reads g cs ending)
    (hitems : ∀ v ∈ g.items, v.Throughout Value.IsWritten) : ending.Written := by
  induction h with
  | opening _ _ ih => exact ih (List.forall_mem_nil _)
  | quote _ _ ih => exact quoteForm_written (ih (List.forall_mem_nil _))
  | string => exact (Value.throughout_atom rfl).2 trivial
  | char => exact (Value.throughout_atom rfl).2 trivial
  | @word cs tail c hskip hmark =>
    refine Token.ofWord_written ?_ fun d hd => ?_
    · rw [Text.word_cons (Text.isDelimiter_of_skip hskip hmark)]
      exact List.cons_ne_nil c _
    · exact (Bool.or_eq_false_iff.1 (Text.isDelimiter_of_mem_word hd)).1
  | close => exact collect_written _ hitems
  | item _ _ _ _ ihitem ihrest =>
    exact ihrest (List.forall_mem_cons.2 ⟨ihitem (List.forall_mem_nil _), hitems⟩)
  | _ => trivial

theorem ReadsAll.written {r : Except Failure (List Value × List Char)} (h : ReadsAll cs r)
    {forms : List Value} {left : List Char} (hr : r = .ok (forms, left)) :
    ∀ v ∈ forms, v.Throughout Value.IsWritten := by
  induction h generalizing forms with
  | done => cases hr; exact List.forall_mem_nil _
  | failure => cases hr
  | @form cs rest v r hform _ ih =>
    cases r with
    | error f => cases hr
    | ok result =>
      cases hr
      exact List.forall_mem_cons.2 ⟨hform.written (List.forall_mem_nil _), ih rfl⟩

end Reader

/-- Every symbol that is read is a written one. -/
theorem read_written {text : String} {forms : List Value} (h : read text = .ok forms) :
    ∀ v ∈ forms, v.Throughout Value.IsWritten := by
  have hall : Reader.ReadsAll text.toList (.ok (forms, [])) :=
    Reader.readsAll_iff.2 (congrArg Reader.outcome h.symm)
  exact hall.written rfl

open Reader in
/-- Reading a text to its end comes to exactly one outcome, the one that `read` gives. Every read
ends, from every place; one that gives a form has taken something from the text, and one that fails
has met a fault of the text, since the item of a collection that has begun is always a form. In the
forms that are read every symbol has a word for its name, and for its namespace if it has one. -/
theorem reading_advances (text : String) :
    (∀ r, ReadsAll text.toList r ↔ r = outcome (read text)) ∧
    (∀ g cs, ∃ ending, Reads g cs ending) ∧
    (∀ g cs v rest, Reads g cs (.form v rest) → ∃ taken, taken ≠ [] ∧ cs = taken ++ rest) ∧
    (∀ g cs f, Reads g cs (.failure f) → ∃ e : ReadError, f = .fault e) ∧
    (∀ e : ReadError, e.message ∈
      ["unexpected ')'", "unexpected ']'", "unterminated collection, expected ')'",
        "unterminated collection, expected ']'", "unterminated string", "quote needs a form",
        "character literal"]) ∧
    ∀ forms, read text = .ok forms → ∀ v ∈ forms, ∀ s, Value.Occurs (.symbol s) v →
      Text.IsWord s.base ∧ ∀ space ∈ s.space, Text.IsWord space := by
  refine ⟨fun r => readsAll_iff, exists_reads, fun g cs v rest h => h.advances,
    fun g cs f h => h.fault, fun e => ?_, fun forms h v hv s hs => ?_⟩
  · rcases e with (_ | _) | (_ | _) | _ | _ | _ <;> decide
  · have hwritten : s.Written := read_written h v hv (.symbol s) hs
    exact ⟨hwritten.base, hwritten.space⟩

/-- A text that can be read, and one whose last quote mark has only a comment after it. -/
theorem reading_advances_quoted :
    (Reader.ReadsAll "['a/b \\c]".toList
      (.ok ([.vector [Reader.quoteForm (.symbol ⟨some "a", "b"⟩), .char 'c']], [])) ∧
        Text.IsWord "b" ∧ Text.IsWord "a") ∧
    Reader.ReadsAll "(d) ' ; e".toList (.error (.fault .quoteNeedsForm)) := by
  have hread : read "['a/b \\c]" =
      .ok [.vector [Reader.quoteForm (.symbol ⟨some "a", "b"⟩), .char 'c']] := rfl
  have hfault : read "(d) ' ; e" = .error .quoteNeedsForm := rfl
  obtain ⟨hall, _, _, _, _, hsymbols⟩ := reading_advances "['a/b \\c]"
  have hoccurs : Value.Occurs (.symbol ⟨some "a", "b"⟩)
      (.vector [Reader.quoteForm (.symbol ⟨some "a", "b"⟩), .char 'c']) :=
    .vector List.mem_cons_self (.list (List.mem_cons_of_mem _ List.mem_cons_self) .self)
  obtain ⟨hbase, hspace⟩ := hsymbols _ hread _ List.mem_cons_self _ hoccurs
  refine ⟨⟨(hall _).2 ?_, hbase, hspace "a" rfl⟩, ((reading_advances _).1 _).2 ?_⟩
  · rw [hread]
    rfl
  · rw [hfault]
    rfl

end LispCore
