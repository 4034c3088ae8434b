import LispCore.Proofs.Printing

/-!
# Texts read line by line

The lexer only adds to the tokens that it has, and the reader only adds to the forms that it has.
So what a text is read as does not depend on what was read before it, once nothing is left open
(`Reader.resume_after`). A line break leaves nothing open but a string: lines that can be read by
themselves can be read one after the other.
-/

namespace LispCore

/-! ## Tokens -/

namespace Lexer

/-- The state with tokens before its own. -/
def State.after (s : State) (older : List Token) : State := { s with tokens := s.tokens ++ older }

theorem State.after_ite {p : Prop} [Decidable p] (s t : State) (older : List Token) :
    (if p then s else t).after older = if p then s.after older else t.after older :=
  apply_ite (State.after · older) p s t

theorem start_after (tokens older : List Token) (c : Char) :
    start (tokens ++ older) c = (start tokens c).after older := by
  simp only [start, State.after_ite]
  rfl

theorem Collects.step_after {mode : List Char → Mode} {token : List Char → Token}
    (h : Collects mode token) (seen : List Char) (tokens older : List Token) (c : Char) :
    step ⟨mode seen, tokens ++ older⟩ c = (step ⟨mode seen, tokens⟩ c).after older := by
  cases hc : Text.isDelimiter c with
  | true =>
    rw [h.delimited hc, h.delimited hc]
    exact start_after (token seen.reverse :: tokens) older c
  | false =>
    rw [h.more hc, h.more hc]
    rfl

/-- One character is read whatever was read before. -/
theorem step_after (s : State) (older : List Token) (c : Char) :
    step (s.after older) c = (step s c).after older := by
  obtain ⟨mode, tokens⟩ := s
  cases mode with
  | between => exact start_after tokens older c
  | comment => rfl
  | word seen => exact collects_word.step_after seen tokens older c
  | charName seen => exact collects_charName.step_after seen tokens older c
  | string seen =>
    simp only [step, State.after_ite]
    rfl
  | escape seen => rfl

theorem finish_after (s : State) (older : List Token) :
    finish (s.after older) = finish s ++ older := by
  obtain ⟨mode, tokens⟩ := s
  cases mode <;> rfl

theorem foldl_after (cs : List Char) (s : State) (older : List Token) :
    cs.foldl step (s.after older) = (cs.foldl step s).after older := by
  induction cs generalizing s with
  | nil => rfl
  | cons c cs ih => rw [List.foldl_cons, step_after, ih, List.foldl_cons]

theorem reverse_scan (tokens : List Token) (cs : List Char) :
    (scan tokens cs).reverse = tokens.reverse ++ run cs := by
  have hafter : (⟨.between, tokens⟩ : State) = State.after {} tokens := rfl
  rw [scan, hafter, foldl_after, finish_after, List.reverse_append]
  rfl

/-- Whether a string has begun and not ended. -/
def Mode.inString : Mode → Bool
  | .string _ => true
  | .escape _ => true
  | _ => false

/-- A line break ends every token but a string. -/
theorem step_newline {s : State} (hs : s.mode.inString = false) :
    step s '\n' = ⟨.between, finish s⟩ := by
  obtain ⟨mode, tokens⟩ := s
  cases mode with
  | string seen => cases hs
  | escape seen => cases hs
  | _ => rfl

theorem run_newline {a : List Char} (ha : (a.foldl step {}).mode.inString = false)
    (b : List Char) : run (a ++ '\n' :: b) = run a ++ run b := by
  have hscan : run (a ++ '\n' :: b) = (scan (finish (a.foldl step {})) b).reverse := by
    rw [run, List.foldl_append, List.foldl_cons, step_newline ha]
    rfl
  rw [hscan, reverse_scan]
  rfl

/-- A string that does not end is the last token. -/
theorem run_of_inString {a : List Char} (ha : (a.foldl step {}).mode.inString = true) :
    ∃ tokens, run a = tokens ++ [.fault .unterminatedString] := by
  have hfinish {s : State} (hs : s.mode.inString = true) :
      finish s = .fault .unterminatedString :: s.tokens := by
    obtain ⟨mode, tokens⟩ := s
    cases mode with
    | string seen => rfl
    | escape seen => rfl
    | _ => cases hs
  refine ⟨(a.foldl step {}).tokens.reverse, ?_⟩
  rw [run, hfinish ha, List.reverse_cons]

end Lexer

/-! ## Forms -/

namespace Reader

/-- The state with forms before its own. -/
def State.after (s : State) (older : List Value) : State := { s with forms := s.forms ++ older }

theorem push_after (forms older : List Value) (stack : List Pending) (v : Value) :
    push (forms ++ older) stack v = (push forms stack v).after older := by
  induction stack generalizing v with
  | nil => rfl
  | cons p stack ih =>
    cases p with
    | quoteMark => exact ih (quoteForm v)
    | collection b items => rfl

/-- One token is read whatever was read before. -/
theorem step_after (s : State) (older : List Value) (token : Token) :
    step (s.after older) token = (step s token).map (·.after older) := by
  obtain ⟨stack, forms⟩ := s
  cases token with
  | opening b => rfl
  | quoteMark => rfl
  | atom v => exact congrArg Except.ok (push_after forms older stack v)
  | fault e => rfl
  | closing b =>
    cases stack with
    | nil => rfl
    | cons p stack =>
      cases p with
      | quoteMark => rfl
      | collection b' items =>
        simp only [step, State.after]
        split
        · exact congrArg Except.ok (push_after forms older stack _)
        · rfl

theorem foldlM_after (tokens : List Token) (s : State) (older : List Value) :
    tokens.foldlM step (s.after older) = (tokens.foldlM step s).map (·.after older) := by
  induction tokens generalizing s with
  | nil => rfl
  | cons token tokens ih =>
    rw [List.foldlM_cons, List.foldlM_cons, step_after]
    cases step s token with
    | error e => rfl
    | ok next => exact ih next

theorem finish_after (s : State) (older : List Value) :
    finish (s.after older) = (finish s).map (older.reverse ++ ·) := by
  obtain ⟨stack, forms⟩ := s
  cases stack with
  | nil => exact congrArg Except.ok List.reverse_append
  | cons p stack => cases p <;> rfl

/-- Reads a text to its end from a state. -/
def resume (s : State) (cs : List Char) : Except ReadError (List Value) := do
  finish (← (Lexer.run cs).foldlM step s)

theorem resume_after (s : State) (older : List Value) (cs : List Char) :
    resume (s.after older) cs = (resume s cs).map (older.reverse ++ ·) := by
  unfold resume
  rw [foldlM_after]
  cases (Lexer.run cs).foldlM step s with
  | error e => rfl
  | ok next => exact finish_after next older

theorem finish_eq_ok {s : State} {forms : List Value} (h : finish s = .ok forms) :
    s = State.after {} forms.reverse := by
  obtain ⟨stack, forms'⟩ := s
  cases stack with
  | nil =>
    cases h
    rw [List.reverse_reverse]
    rfl
  | cons p stack => cases p <;> cases h

end Reader

/-! ## Lines -/

/-- A text that can be read does not end inside a string. -/
theorem inString_of_read {text : String} {forms : List Value} (h : read text = .ok forms) :
    (text.toList.foldl Lexer.step {}).mode.inString = false := by
  refine Bool.eq_false_iff.2 fun hopen => ?_
  obtain ⟨tokens, hrun⟩ := Lexer.run_of_inString hopen
  rw [read, Reader.ofTokens, hrun, List.foldlM_append] at h
  cases hfold : tokens.foldlM Reader.step {} with
  | error e => rw [hfold] at h; cases h
  | ok s => rw [hfold] at h; cases h

theorem read_newline {a : String} {forms : List Value} (h : read a = .ok forms) (b : String) :
    read (a ++ "\n" ++ b) = (read b).map (forms ++ ·) := by
  have htext : (a ++ "\n" ++ b).toList = a.toList ++ '\n' :: b.toList := by simp
  rw [read, Reader.ofTokens, htext, Lexer.run_newline (inString_of_read h), List.foldlM_append]
  rw [read, Reader.ofTokens] at h
  cases hfold : (Lexer.run a.toList).foldlM Reader.step {} with
  | error e => rw [hfold] at h; cases h
  | ok s =>
    rw [hfold] at h
    rw [Reader.finish_eq_ok h]
    have hresume := Reader.resume_after {} forms.reverse b.toList
    rw [List.reverse_reverse] at hresume
    exact hresume

/-- A text that can be read, a line break and another text are read as the forms of the first and
then those of the second, and reading fails exactly if it fails on the second, in the same way. -/
theorem lines_read_in_turn {a : String} {forms : List Value} (h : read a = .ok forms)
    (b : String) :
    (∀ forms', read b = .ok forms' → read (a ++ "\n" ++ b) = .ok (forms ++ forms')) ∧
    ∀ e, read (a ++ "\n" ++ b) = .error e ↔ read b = .error e := by
  rw [read_newline h b]
  cases hb : read b with
  | error e' => exact ⟨nofun, fun e => Iff.rfl⟩
  | ok forms' =>
    refine ⟨fun _ h => ?_, fun e => ⟨nofun, nofun⟩⟩
    cases h
    rfl

/-- The first text ends in a comment, the second is not complete. -/
theorem lines_read_in_turn_comment :
    read "[1 \\a] ; and so on" = .ok [.vector [.int 1, .char 'a']] ∧
      read "[1 \\a] ; and so on\n'(x" = .error (.unterminatedCollection .round) := by
  have hfirst : read "[1 \\a] ; and so on" = .ok [.vector [.int 1, .char 'a']] := rfl
  have hsecond : read "'(x" = .error (.unterminatedCollection .round) := rfl
  exact ⟨hfirst, ((lines_read_in_turn hfirst "'(x").2 _).2 hsecond⟩

end LispCore
