import LispCore.Reader
import LispCore.Value.Printer

/-!
# Reading what was printed

`Value.Readable` holds of the values that the reader takes back from their printed form. Between
the two texts stand the tokens: `Value.tokens v` are what the printed form of `v` consists of. The
lexer finds exactly these in it, whatever follows, as long as that cannot prolong the last word
(`Lexer.scan_printOnto`), and the reader makes `v` of them again (`Reader.foldlM_tokens`).
-/

namespace LispCore

/-! ## Readable values -/

/-- What holds of the characters of a text is decided along the text. -/
instance Text.decidableForallMem (p : Char → Prop) [DecidablePred p] (cs : List Char) :
    Decidable (∀ c ∈ cs, p c) := List.decidableBAll p cs

instance Text.decidableForallHead (p : Char → Prop) [DecidablePred p] (c? : Option Char) :
    Decidable (∀ c ∈ c?, p c) := Option.decidableForallMem c?

/-- A symbol whose printed form is one bare word that means nothing but this symbol. -/
structure Symbol.Readable (s : Symbol) : Prop where
  nonempty : s.text ≠ ""
  bare : ∀ c ∈ s.text.toList, Text.isDelimiter c = false
  unmarked : ∀ c ∈ s.text.toList.head?, c ≠ '\'' ∧ c ≠ '\\' ∧ c ≠ ':'
  notConstant : s.text ≠ "nil" ∧ s.text ≠ "true" ∧ s.text ≠ "false"
  notInt : Numeral.int64? s.text.toList = none
  notFloat : '.' ∈ s.text.toList → Double.parse? s.text.toList = none
  parses : Symbol.parse s.text = s

/-- A keyword whose printed form, after its colon, is a bare word that means this keyword. -/
structure Keyword.Readable (k : Keyword) : Prop where
  bare : ∀ c ∈ k.text.toList, Text.isDelimiter c = false
  oneColon : k.text.toList.head? ≠ some ':'
  parses : Keyword.parse k.text = k

/-- A character that is written by name or that does not end the word it stands in. -/
def Text.IsReadable (c : Char) : Prop :=
  c = '\n' ∨ c = ' ' ∨ c = '\t' ∨ isDelimiter c = false

inductive Value.Readable : Value → Prop where
  | nil : Readable .nil
  | bool (b : Bool) : Readable (.bool b)
  | int (n : Int64) : Readable (.int n)
  | char {c : Char} : Text.IsReadable c → Readable (.char c)
  | str {s : String} : '\r' ∉ s.toList → Readable (.str s)
  | symbol {s : Symbol} : s.Readable → Readable (.symbol s)
  | keyword {k : Keyword} : k.Readable → Readable (.keyword k)
  | list {items : List Value} : (∀ v ∈ items, Readable v) → Readable (.list items)
  | vector {items : List Value} : (∀ v ∈ items, Readable v) → Readable (.vector items)

/-! ## Printed forms -/

namespace Value

theorem printAllOnto_append_of {items : List Value}
    (h : ∀ v ∈ items, ∀ rest, v.printOnto rest = v.printOnto [] ++ rest) (rest : List Char) :
    printAllOnto items rest = printAllOnto items [] ++ rest := by
  induction items with
  | nil => rfl
  | cons v items ih =>
    obtain ⟨hv, hitems⟩ := List.forall_mem_cons.1 h
    cases items with
    | nil => exact hv rest
    | cons w items =>
      rw [printAllOnto, printAllOnto, hv, hv (' ' :: printAllOnto (w :: items) []), ih hitems]
      simp

theorem printOnto_append (v : Value) (rest : List Char) :
    v.printOnto rest = v.printOnto [] ++ rest := by
  induction v using collection_induction generalizing rest with
  | list items ih =>
    rw [printOnto, printOnto, printAllOnto_append_of ih, printAllOnto_append_of ih [')']]
    simp
  | vector items ih =>
    rw [printOnto, printOnto, printAllOnto_append_of ih, printAllOnto_append_of ih [']']]
    simp
  | other v hlist hvector =>
    cases v with
    | list items => exact absurd rfl (hlist items)
    | vector items => exact absurd rfl (hvector items)
    | str s =>
      have hbody (cs : List Char) :
          cs.foldr (fun c r => Text.escape c ++ r) ('"' :: rest) =
            cs.foldr (fun c r => Text.escape c ++ r) ['"'] ++ rest := by
        induction cs with
        | nil => rfl
        | cons c cs ih => rw [List.foldr_cons, List.foldr_cons, ih, List.append_assoc]
      rw [printOnto, printOnto, Text.quotedOnto, Text.quotedOnto, hbody, List.cons_append]
    | _ => rw [printOnto, printOnto, List.append_nil]

/-- Printed forms joined by spaces are those of the items of a collection. -/
theorem toList_intercalate_display (vs : List Value) :
    (" ".intercalate (vs.map display)).toList = printAllOnto vs [] := by
  induction vs with
  | nil => rfl
  | cons v vs ih =>
    cases vs with
    | nil =>
      rw [List.map_singleton, String.intercalate_singleton, display, String.toList_ofList,
        printAllOnto]
    | cons w vs =>
      rw [List.map_cons, List.map_cons, String.intercalate_cons_cons, ← List.map_cons,
        String.toList_append, String.toList_append, ih, display, String.toList_ofList,
        printAllOnto, printOnto_append v (' ' :: _), List.append_assoc]
      rfl

/-! ## The tokens of a value -/

mutual

/-- The tokens of the printed form: brackets around those of the items, or one atom. -/
def tokens : Value → List Token
  | .list items => .opening .round :: (allTokens items ++ [.closing .round])
  | .vector items => .opening .square :: (allTokens items ++ [.closing .square])
  | v => [.atom v]

def allTokens : List Value → List Token
  | [] => []
  | v :: vs => tokens v ++ allTokens vs

end

end Value

namespace Reader

/-- Items go into the collection that is open, one after the other. -/
theorem foldlM_allTokens_of {items : List Value}
    (h : ∀ v ∈ items, ∀ s, v.tokens.foldlM step s = .ok (push s.forms s.stack v))
    (b : Bracket) (before : List Value) (stack : List Pending) (forms : List Value) :
    (Value.allTokens items).foldlM step ⟨.collection b before :: stack, forms⟩ =
      .ok ⟨.collection b (items.reverse ++ before) :: stack, forms⟩ := by
  induction items generalizing before with
  | nil => rfl
  | cons v items ih =>
    obtain ⟨hv, hitems⟩ := List.forall_mem_cons.1 h
    rw [Value.allTokens, List.foldlM_append, hv, List.reverse_cons, List.append_assoc]
    exact ih hitems (v :: before)

/-- The reader completes the value whose tokens it meets. -/
theorem foldlM_tokens (v : Value) (s : State) :
    v.tokens.foldlM step s = .ok (push s.forms s.stack v) := by
  -- the items of a collection are kept last first until its bracket closes
  have hcollection (b : Bracket) (items : List Value)
      (ih : ∀ v ∈ items, ∀ s, v.tokens.foldlM step s = .ok (push s.forms s.stack v)) (s : State) :
      (Token.opening b :: (Value.allTokens items ++ [.closing b])).foldlM step s =
        .ok (push s.forms s.stack (collect b items.reverse)) := by
    have hclose : step ⟨.collection b items.reverse :: s.stack, s.forms⟩ (.closing b) =
        .ok (push s.forms s.stack (collect b items.reverse)) := if_pos rfl
    change (Value.allTokens items ++ [Token.closing b]).foldlM step
      ⟨.collection b [] :: s.stack, s.forms⟩ = _
    rw [List.foldlM_append, foldlM_allTokens_of ih, List.append_nil]
    change step _ _ >>= pure = _
    rw [hclose]
    rfl
  induction v using Value.collection_induction generalizing s with
  | list items ih =>
    rw [Value.tokens, hcollection .round items ih, collect, List.reverse_reverse]
  | vector items ih =>
    rw [Value.tokens, hcollection .square items ih, collect, List.reverse_reverse]
  | other v hlist hvector =>
    cases v with
    | list items => exact absurd rfl (hlist items)
    | vector items => exact absurd rfl (hvector items)
    | _ => rfl

/-- Read from its tokens, a sequence of values is itself. -/
theorem ofTokens_allTokens (vs : List Value) : ofTokens (Value.allTokens vs) = .ok vs := by
  have hforms (vs forms : List Value) : (Value.allTokens vs).foldlM step ⟨[], forms⟩ =
      .ok ⟨[], vs.reverse ++ forms⟩ := by
    induction vs generalizing forms with
    | nil => rfl
    | cons v vs ih =>
      rw [Value.allTokens, List.foldlM_append, foldlM_tokens, List.reverse_cons, List.append_assoc]
      exact ih (v :: forms)
  rw [ofTokens, hforms, List.append_nil]
  exact congrArg Except.ok vs.reverse_reverse

end Reader

/-! ## The lexer on bare words -/

namespace Lexer

/-- What remains to be read cannot prolong the word before it. -/
def Ended (rest : List Char) : Prop := ∀ c ∈ rest.head?, Text.isDelimiter c = true

theorem ended_cons {c : Char} {rest : List Char} (h : Text.isDelimiter c = true) :
    Ended (c :: rest) := by
  rintro _ ⟨⟩
  exact h

/-- The tokens of a text that starts between two tokens, after those that come before it. -/
def scan (tokens : List Token) (cs : List Char) : List Token :=
  finish (cs.foldl step ⟨.between, tokens⟩)

/-- A mode that collects the characters of a word; at the end of the word they become a token. -/
structure Collects (mode : List Char → Mode) (token : List Char → Token) : Prop where
  more {c : Char} (hc : Text.isDelimiter c = false) (seen : List Char) (tokens : List Token) :
    step ⟨mode seen, tokens⟩ c = ⟨mode (c :: seen), tokens⟩
  delimited {c : Char} (hc : Text.isDelimiter c = true) (seen : List Char) (tokens : List Token) :
    step ⟨mode seen, tokens⟩ c = step ⟨.between, token seen.reverse :: tokens⟩ c
  last (seen : List Char) (tokens : List Token) :
    finish ⟨mode seen, tokens⟩ = token seen.reverse :: tokens

theorem collects_word : Collects .word fun cs => .atom (Token.ofWord cs) where
  more hc _ _ := by simp [step, hc]
  delimited hc _ _ := by simp [step, hc]
  last _ _ := rfl

theorem collects_charName : Collects .charName Token.ofCharName where
  more hc _ _ := by simp [step, hc]
  delimited hc _ _ := by simp [step, hc]
  last _ _ := rfl

/-- What follows a word is read from between two tokens. -/
theorem Collects.scan {mode : List Char → Mode} {token : List Char → Token}
    (h : Collects mode token) {cs rest : List Char}
    (hcs : ∀ c ∈ cs, Text.isDelimiter c = false) (hrest : Ended rest) (seen : List Char)
    (tokens : List Token) :
    finish ((cs ++ rest).foldl step ⟨mode seen, tokens⟩) =
      scan (token (seen.reverse ++ cs) :: tokens) rest := by
  induction cs generalizing seen with
  | nil =>
    rw [List.nil_append, List.append_nil]
    cases rest with
    | nil => exact h.last seen tokens
    | cons c rest => rw [Lexer.scan, List.foldl_cons, List.foldl_cons, h.delimited (hrest c rfl)]
  | cons c cs ih =>
    obtain ⟨hc, hcs⟩ := List.forall_mem_cons.1 hcs
    rw [List.cons_append, List.foldl_cons, h.more hc, ih hcs, List.reverse_cons, List.append_assoc]
    rfl

/-- Characters that begin a bare word. -/
theorem start_word {c : Char} (hc : Text.isDelimiter c = false) (hquote : c ≠ '\'')
    (hescape : c ≠ '\\') (tokens : List Token) : start tokens c = ⟨.word [c], tokens⟩ := by
  have hdelimiter := hc
  simp only [Text.isDelimiter, Bool.or_eq_false_iff] at hdelimiter
  obtain ⟨hblank, hmarks⟩ := hdelimiter
  have hne (d : Char) (hd : "()[],;\"".toList.contains d = true) : c ≠ d := by
    rintro rfl
    rw [hmarks] at hd
    cases hd
  unfold start
  simp [hblank, hquote, hescape, hne ',' rfl, hne ';' rfl, hne '(' rfl, hne '[' rfl, hne ')' rfl,
    hne ']' rfl, hne '"' rfl]

/-- A bare word is one token. -/
theorem scan_word (cs : List Char) {rest : List Char} (hne : cs ≠ [])
    (hcs : ∀ c ∈ cs, Text.isDelimiter c = false)
    (hstart : ∀ c ∈ cs.head?, c ≠ '\'' ∧ c ≠ '\\') (hrest : Ended rest) (tokens : List Token) :
    scan tokens (cs ++ rest) = scan (.atom (Token.ofWord cs) :: tokens) rest := by
  cases cs with
  | nil => exact absurd rfl hne
  | cons c cs =>
    obtain ⟨hc, hcs⟩ := List.forall_mem_cons.1 hcs
    obtain ⟨hquote, hescape⟩ := hstart c rfl
    have hfirst : step ⟨.between, tokens⟩ c = ⟨.word [c], tokens⟩ := start_word hc hquote hescape _
    rw [scan, List.cons_append, List.foldl_cons, hfirst, collects_word.scan hcs hrest]
    rfl

/-- A backslash and a word are one token. -/
theorem scan_charName {cs rest : List Char} (hcs : ∀ c ∈ cs, Text.isDelimiter c = false)
    (hrest : Ended rest) (tokens : List Token) :
    scan tokens ('\\' :: (cs ++ rest)) = scan (Token.ofCharName cs :: tokens) rest := by
  have hfirst : step ⟨.between, tokens⟩ '\\' = ⟨.charName [], tokens⟩ := rfl
  rw [scan, List.foldl_cons, hfirst, collects_charName.scan hcs hrest]
  rfl

/-- Escaping is undone inside a string, unless it has a carriage return. -/
theorem foldl_string {cs : List Char} (h : '\r' ∉ cs) (rest seen : List Char)
    (tokens : List Token) :
    (cs.foldr (fun c r => Text.escape c ++ r) ('"' :: rest)).foldl step ⟨.string seen, tokens⟩ =
      rest.foldl step ⟨.between, .atom (.str (String.ofList (seen.reverse ++ cs))) :: tokens⟩ := by
  induction cs generalizing seen with
  | nil => simp [step]
  | cons c cs ih =>
    have hreturn : c ≠ '\r' := fun hc => h (hc ▸ List.mem_cons_self)
    have hchar : (Text.escape c).foldl step ⟨.string seen, tokens⟩ =
        ⟨.string (c :: seen), tokens⟩ := by
      unfold Text.escape
      split
      · rfl
      · rfl
      · exact absurd rfl hreturn
      · rfl
      · rfl
      · next hbackslash hquote =>
        rw [List.foldl_cons, step, List.foldl_nil]
        exact (if_neg hquote).trans (if_neg hbackslash)
    rw [List.foldr_cons, List.foldl_append, hchar, ih fun hmem => h (List.mem_cons_of_mem c hmem)]
    simp

theorem scan_str {s : String} (h : '\r' ∉ s.toList) (rest : List Char) (tokens : List Token) :
    scan tokens (Text.quotedOnto s.toList rest) = scan (.atom (.str s) :: tokens) rest := by
  have hfirst : step ⟨.between, tokens⟩ '"' = ⟨.string [], tokens⟩ := rfl
  rw [scan, Text.quotedOnto, List.foldl_cons, hfirst, foldl_string h]
  simp [scan]

end Lexer

/-! ## Numerals -/

namespace Numeral

theorem ofDigits_toDigits (n : Nat) : ofDigits (Nat.toDigits 10 n) = n := by
  have h := Nat.ofDigitChars_ten_toDigits (n := n)
  rwa [Nat.ofDigitChars_eq_foldl] at h

theorem takeSign_toDigits (n : Nat) : takeSign (Nat.toDigits 10 n) = (false, Nat.toDigits 10 n) := by
  unfold takeSign
  split
  · next cs hcs =>
    have hminus : ('-').isDigit = true :=
      Nat.isDigit_of_mem_toDigits (by decide) (by decide) (hcs ▸ List.mem_cons_self)
    cases hminus
  · next cs hcs =>
    have hplus : ('+').isDigit = true :=
      Nat.isDigit_of_mem_toDigits (by decide) (by decide) (hcs ▸ List.mem_cons_self)
    cases hplus
  · rfl

/-- The digits of a number are read as that number, up to the sign in front of them. -/
theorem integer?_of_digits {cs : List Char} (negative : Bool) {n : Nat}
    (h : takeSign cs = (negative, Nat.toDigits 10 n)) :
    integer? cs = some (if negative then -(n : Int) else n) := by
  have hdigits : (Nat.toDigits 10 n).all Char.isDigit = true :=
    List.all_eq_true.2 fun c hc => Nat.isDigit_of_mem_toDigits (by decide) (by decide) hc
  have hne : (Nat.toDigits 10 n).isEmpty = false := by
    rw [List.isEmpty_eq_false_iff]
    exact Nat.toDigits_ne_nil
  unfold integer?
  simp [h, hdigits, hne, ofDigits_toDigits]

theorem toList_toString (n : Int) : (toString n).toList =
    if 0 ≤ n then Nat.toDigits 10 n.toNat else '-' :: Nat.toDigits 10 (-n).toNat := by
  rw [Int.toString_eq_repr, Int.repr_eq_if]
  split
  · exact Nat.toList_repr
  · rw [String.toList_append, Nat.toList_repr]
    rfl

theorem integer?_toString (n : Int) : integer? (toString n).toList = some n := by
  rw [toList_toString]
  split
  · next hn =>
    rw [integer?_of_digits false (takeSign_toDigits _), Int.toNat_of_nonneg hn]
    rfl
  · next hn =>
    have hneg : ((-n).toNat : Int) = -n := Int.toNat_of_nonneg (by omega)
    rw [integer?_of_digits true rfl, hneg]
    simp

/-- Every integer of 64 bits is read back from its decimal form. -/
theorem int64?_toString (n : Int64) : int64? (toString n.toInt).toList = some n := by
  have hle := n.le_toInt
  have hlt := n.toInt_lt
  unfold int64?
  rw [integer?_toString]
  have hfits : (-0x8000000000000000 ≤ n.toInt && n.toInt < 0x8000000000000000) = true := by
    simp only [Bool.and_eq_true, decide_eq_true_eq]
    omega
  simp only [hfits, if_true, Int64.ofInt_toInt]

theorem mem_toString {c : Char} {n : Int} (h : c ∈ (toString n).toList) :
    c = '-' ∨ c.isDigit = true := by
  have hdigit {k : Nat} (hc : c ∈ Nat.toDigits 10 k) : c.isDigit = true :=
    Nat.isDigit_of_mem_toDigits (by decide) (by decide) hc
  rw [toList_toString] at h
  split at h
  · exact .inr (hdigit h)
  · exact (List.mem_cons.1 h).imp_right hdigit

end Numeral

theorem Text.isDelimiter_of_isDigit {c : Char} (h : c.isDigit = true) : isDelimiter c = false := by
  have hmarks : ∀ d ∈ "()[],;\"".toList, d.isDigit = false := by decide
  have hmark : "()[],;\"".toList.contains c = false := by
    rw [List.contains_eq_mem, decide_eq_false_iff_not]
    intro hc
    rw [hmarks c hc] at h
    cases h
  have hblank : isBlank c = false := by
    simp only [Char.isDigit, Bool.and_eq_true, decide_eq_true_eq] at h
    have hlo : 48 ≤ c.toNat := UInt32.le_iff_toNat_le.1 h.1
    have hhi : c.toNat ≤ 57 := UInt32.le_iff_toNat_le.1 h.2
    simp only [isBlank, blankRanges, List.any_cons, List.any_nil, Bool.or_false,
      Bool.or_eq_false_iff, Bool.and_eq_false_iff, decide_eq_false_iff_not]
    omega
  rw [isDelimiter, hblank, hmark]
  rfl

/-! ## The lexer on printed forms -/

namespace Token

theorem ofWord_int (n : Int64) : ofWord (toString n.toInt).toList = .int n := by
  have hn := Numeral.int64?_toString n
  have hword (word : String) (hnone : Numeral.int64? word.toList = none) :
      toString n.toInt ≠ word := by
    rintro rfl
    rw [hn] at hnone
    cases hnone
  unfold ofWord
  simp only [String.ofList_toList, hword "nil" rfl, hword "true" rfl, hword "false" rfl, if_false,
    hn]

theorem ofWord_symbol {s : Symbol} (h : s.Readable) : ofWord s.text.toList = .symbol s := by
  have hfloat : float? s.text.toList = none := by
    unfold float?
    split
    · next hpoint => exact h.notFloat (List.contains_iff_mem.1 hpoint)
    · rfl
  unfold ofWord
  simp only [String.ofList_toList, h.notConstant.1, h.notConstant.2.1, h.notConstant.2.2, if_false,
    h.notInt, hfloat]
  split
  · next name hcs =>
    have hcolon := h.unmarked ':' (by rw [hcs]; rfl)
    exact absurd rfl hcolon.2.2
  · rw [h.parses]

theorem ofList_ne {cs : List Char} {word : String} (h : cs ≠ word.toList) :
    String.ofList cs ≠ word := by
  rintro rfl
  exact h String.toList_ofList.symm

theorem ofWord_keyword {k : Keyword} (h : k.Readable) :
    ofWord (':' :: k.text.toList) = .keyword k := by
  have hint : Numeral.int64? (':' :: k.text.toList) = none := rfl
  have hparse : Double.parse? (':' :: k.text.toList) = none := by
    have hlower (word : String) (hword : word.toList.head? ≠ some ':') :
        String.ofList ((':' :: k.text.toList).map Char.toLower) ≠ word :=
      ofList_ne fun hcs => hword (by rw [← hcs]; rfl)
    have hsign : Numeral.takeSign (':' :: k.text.toList) = (false, ':' :: k.text.toList) := rfl
    unfold Double.parse?
    simp only [hsign, hlower "inf" (by decide), hlower "infinity" (by decide),
      hlower "nan" (by decide), decide_false, Bool.or_self, Bool.false_eq_true, if_false]
    rfl
  have hfloat : float? (':' :: k.text.toList) = none := by
    unfold float?
    split
    · exact hparse
    · rfl
  have hword (word : String) (hword : word.toList.head? ≠ some ':') :
      String.ofList (':' :: k.text.toList) ≠ word :=
    ofList_ne fun hcs => hword (by rw [← hcs]; rfl)
  unfold ofWord
  simp only [hword "nil" (by decide), hword "true" (by decide), hword "false" (by decide), if_false,
    hint, hfloat, String.ofList_toList, h.parses]

theorem ofCharName_single (c : Char) : ofCharName [c] = .atom (.char c) := by
  have hword (word : String) (hword : word.toList.length ≠ 1) : String.ofList [c] ≠ word :=
    ofList_ne fun hcs => hword (by rw [← hcs]; rfl)
  unfold ofCharName
  simp only [hword "newline" (by decide), hword "space" (by decide), hword "tab" (by decide),
    if_false]

end Token

namespace Lexer

theorem scan_char {c : Char} (hc : Text.IsReadable c) {rest : List Char} (hrest : Ended rest)
    (tokens : List Token) :
    scan tokens (Text.charLiteral c ++ rest) = scan (.atom (.char c) :: tokens) rest := by
  have hname (name : List Char) (hname : ∀ d ∈ name, Text.isDelimiter d = false) :
      scan tokens ('\\' :: (name ++ rest)) = scan (Token.ofCharName name :: tokens) rest :=
    scan_charName hname hrest tokens
  rcases hc with rfl | rfl | rfl | hc
  · exact hname "newline".toList (by decide)
  · exact hname "space".toList (by decide)
  · exact hname "tab".toList (by decide)
  · have hliteral : Text.charLiteral c = ['\\', c] := by
      unfold Text.charLiteral
      split
      · cases hc
      · cases hc
      · cases hc
      · cases hc
      · rfl
    rw [hliteral, ← Token.ofCharName_single]
    exact hname [c] (List.forall_mem_singleton.2 hc)

theorem scan_space (tokens : List Token) (cs : List Char) :
    scan tokens (' ' :: cs) = scan tokens cs := rfl

/-- The printed items of a collection, with spaces between them, are the tokens of the items. -/
theorem scan_printAllOnto_of {items : List Value}
    (h : ∀ v ∈ items, ∀ rest, Ended rest → ∀ tokens,
      scan tokens (v.printOnto rest) = scan (v.tokens.reverse ++ tokens) rest)
    {rest : List Char} (hrest : Ended rest) (tokens : List Token) :
    scan tokens (Value.printAllOnto items rest) =
      scan ((Value.allTokens items).reverse ++ tokens) rest := by
  induction items generalizing tokens with
  | nil => rfl
  | cons v items ih =>
    obtain ⟨hv, hitems⟩ := List.forall_mem_cons.1 h
    cases items with
    | nil =>
      rw [Value.printAllOnto, hv rest hrest, Value.allTokens, Value.allTokens, List.append_nil]
    | cons w items =>
      rw [Value.printAllOnto, hv _ (ended_cons rfl), scan_space, ih hitems, Value.allTokens.eq_2 v,
        List.reverse_append, List.append_assoc]

/-- The lexer finds the tokens of a readable value in its printed form. -/
theorem scan_printOnto {v : Value} (hv : v.Readable) {rest : List Char} (hrest : Ended rest)
    (tokens : List Token) :
    scan tokens (v.printOnto rest) = scan (v.tokens.reverse ++ tokens) rest := by
  induction hv generalizing rest tokens with
  | nil => exact scan_word "nil".toList (by decide) (by decide) (by decide) hrest tokens
  | bool b =>
    cases b with
    | false =>
      exact scan_word "false".toList (by decide) (by decide) (by decide) hrest tokens
    | true => exact scan_word "true".toList (by decide) (by decide) (by decide) hrest tokens
  | int n =>
    have hchar (c : Char) (hc : c ∈ (toString n.toInt).toList) :
        Text.isDelimiter c = false ∧ c ≠ '\'' ∧ c ≠ '\\' := by
      rcases Numeral.mem_toString hc with rfl | hdigit
      · decide
      · refine ⟨Text.isDelimiter_of_isDigit hdigit, ?_, ?_⟩
        · rintro rfl
          cases hdigit
        · rintro rfl
          cases hdigit
    have hne : (toString n.toInt).toList ≠ [] := by
      intro hnil
      have hint := Numeral.int64?_toString n
      rw [hnil] at hint
      cases hint
    have hstart (c : Char) (hc : c ∈ (toString n.toInt).toList.head?) : c ≠ '\'' ∧ c ≠ '\\' :=
      (hchar c (List.mem_of_mem_head? hc)).2
    rw [Value.printOnto, scan_word _ hne (fun c hc => (hchar c hc).1) hstart hrest, Token.ofWord_int]
    rfl
  | char hc => exact scan_char hc hrest tokens
  | str hs => exact scan_str hs rest tokens
  | symbol hs =>
    have hne := mt String.toList_eq_nil_iff.1 hs.nonempty
    have hstart (c : Char) (hc : c ∈ _) : c ≠ '\'' ∧ c ≠ '\\' :=
      ⟨(hs.unmarked c hc).1, (hs.unmarked c hc).2.1⟩
    rw [Value.printOnto, scan_word _ hne hs.bare hstart hrest, Token.ofWord_symbol hs]
    rfl
  | @keyword k hk =>
    have hdisplay : k.display.toList = ':' :: k.text.toList := by
      rw [Keyword.display, String.toList_append]
      rfl
    have hbare : ∀ c ∈ ':' :: k.text.toList, Text.isDelimiter c = false :=
      List.forall_mem_cons.2 ⟨by decide, hk.bare⟩
    have hstart (c : Char) (hc : c ∈ (':' :: k.text.toList).head?) : c ≠ '\'' ∧ c ≠ '\\' := by
      cases hc
      decide
    rw [Value.printOnto, hdisplay, scan_word _ (List.cons_ne_nil _ _) hbare hstart hrest,
      Token.ofWord_keyword hk]
    rfl
  | list _ ih =>
    rw [Value.tokens, List.reverse_cons, List.reverse_append, List.append_assoc, List.append_assoc]
    exact scan_printAllOnto_of (fun v hv _ hrest => ih v hv hrest) (ended_cons rfl) _
  | vector _ ih =>
    rw [Value.tokens, List.reverse_cons, List.reverse_append, List.append_assoc, List.append_assoc]
    exact scan_printAllOnto_of (fun v hv _ hrest => ih v hv hrest) (ended_cons rfl) _

end Lexer

/-! ## Reading printed forms -/

/-- Reading undoes printing: the printed forms of readable values, joined by single spaces, are read
as these values. -/
theorem read_display {vs : List Value} (h : ∀ v ∈ vs, v.Readable) :
    read (" ".intercalate (vs.map Value.display)) = .ok vs := by
  have hended : Lexer.Ended [] := nofun
  have hrun : Lexer.run (Value.printAllOnto vs []) = Value.allTokens vs := by
    change (Lexer.scan [] _).reverse = _
    rw [Lexer.scan_printAllOnto_of (fun v hv _ => Lexer.scan_printOnto (h v hv)) hended,
      List.append_nil]
    exact List.reverse_reverse _
  rw [read, Value.toList_intercalate_display, hrun, Reader.ofTokens_allTokens]

/-- A call with the smallest integer, escapes and named characters in it, a keyword and a symbol
that is almost a number. -/
def mixedForms : List Value :=
  [.list [.symbol ⟨some "ns", "f/g"⟩, .int Int64.minValue,
      .vector [.str "a\"\\\n", .char ' ', .char '\\', .char '\''], .list []],
    .keyword ⟨some "k", "."⟩, .symbol ⟨none, "-."⟩]

theorem read_display_mixedForms :
    (∀ v ∈ mixedForms, v.Readable) ∧
    read "(ns/f/g -9223372036854775808 [\"a\\\"\\\\\\n\" \\space \\\\ \\'] ()) :k/. -." =
      .ok mixedForms := by
  have hreadable : ∀ v ∈ mixedForms, v.Readable := by
    refine List.forall_mem_cons.2 ⟨.list ?_, List.forall_mem_cons.2 ⟨.keyword ?_,
      List.forall_mem_singleton.2 (.symbol ?_)⟩⟩
    · refine List.forall_mem_cons.2 ⟨.symbol ?_, List.forall_mem_cons.2 ⟨.int _,
        List.forall_mem_cons.2 ⟨.vector ?_, List.forall_mem_singleton.2 (.list nofun)⟩⟩⟩
      · constructor <;> decide
      · refine List.forall_mem_cons.2 ⟨.str (by decide), List.forall_mem_cons.2 ⟨.char ?_,
          List.forall_mem_cons.2 ⟨.char ?_, List.forall_mem_singleton.2 (.char ?_)⟩⟩⟩
        · exact .inr (.inl rfl)
        · exact .inr (.inr (.inr rfl))
        · exact .inr (.inr (.inr rfl))
    · constructor <;> decide
    · constructor <;> decide
  have htext : " ".intercalate (mixedForms.map Value.display) =
      "(ns/f/g -9223372036854775808 [\"a\\\"\\\\\\n\" \\space \\\\ \\'] ()) :k/. -." := by decide
  exact ⟨hreadable, htext ▸ read_display hreadable⟩

end LispCore
