/-!
# Blank characters

`isBlank` is Unicode's White_Space property, `trim` removes blank characters from both ends of a
text. Binding names and the reader agree on this one notion of white space.
-/

namespace LispCore.Text

/-- The code points with Unicode's White_Space property, as closed ranges in rising order. -/
def blankRanges : List (Nat × Nat) :=
  [(0x09, 0x0D), (0x20, 0x20), (0x85, 0x85), (0xA0, 0xA0), (0x1680, 0x1680), (0x2000, 0x200A),
   (0x2028, 0x2029), (0x202F, 0x202F), (0x205F, 0x205F), (0x3000, 0x3000)]

/-- White space in the sense of Unicode. -/
def isBlank (c : Char) : Bool :=
  blankRanges.any fun (lo, hi) => lo ≤ c.toNat && c.toNat ≤ hi

/-- Drops the blank characters at the end. -/
def trimRight (cs : List Char) : List Char :=
  (cs.reverse.dropWhile isBlank).reverse

/-- Drops the blank characters at both ends. -/
def trimChars (cs : List Char) : List Char :=
  trimRight (cs.dropWhile isBlank)

/-- The text without the blank characters at its two ends. -/
def trim (s : String) : String :=
  String.ofList (trimChars s.toList)

/-- A text is blank when nothing but white space is in it. -/
def allBlank (s : String) : Bool :=
  s.toList.all isBlank

theorem dropWhile_eq_nil_iff_all {p : Char → Bool} {cs : List Char} :
    cs.dropWhile p = [] ↔ cs.all p = true := by
  induction cs with
  | nil => simp
  | cons c cs ih => by_cases h : p c <;> simp_all

theorem trimChars_eq_nil_iff {cs : List Char} : trimChars cs = [] ↔ cs.all isBlank = true := by
  rw [trimChars, trimRight, List.reverse_eq_nil_iff, dropWhile_eq_nil_iff_all, List.all_reverse,
    ← @dropWhile_eq_nil_iff_all isBlank cs]
  constructor
  · intro h
    cases hd : cs.dropWhile isBlank with
    | nil => rfl
    | cons c r =>
      have hc : isBlank c = true := by rw [hd] at h; simp at h; exact h.1
      have := List.head?_dropWhile_not isBlank cs
      rw [hd] at this
      simp [hc] at this
  · intro h; simp [h]

theorem dropWhile_dropWhile (p : Char → Bool) (cs : List Char) :
    (cs.dropWhile p).dropWhile p = cs.dropWhile p := by
  induction cs with
  | nil => rfl
  | cons c cs ih => by_cases h : p c <;> simp [h, ih]

theorem trimRight_trimRight (cs : List Char) : trimRight (trimRight cs) = trimRight cs := by
  rw [trimRight, trimRight, List.reverse_reverse, dropWhile_dropWhile]

/-- Dropping blanks at the end brings no blank to the front. -/
theorem dropWhile_trimRight {cs : List Char} (h : cs.dropWhile isBlank = cs) :
    (trimRight cs).dropWhile isBlank = trimRight cs := by
  obtain ⟨rest, hrest⟩ : trimRight cs <+: cs := by
    rw [← List.reverse_suffix, trimRight, List.reverse_reverse]
    exact List.dropWhile_suffix isBlank
  cases htrim : trimRight cs with
  | nil => rfl
  | cons c front =>
    have hc : isBlank c = false := by
      have hhead := List.head?_dropWhile_not isBlank cs
      rw [h, ← hrest, htrim] at hhead
      simpa using hhead
    simp [hc]

theorem trimChars_trimChars (cs : List Char) : trimChars (trimChars cs) = trimChars cs := by
  rw [trimChars, trimChars, dropWhile_trimRight (dropWhile_dropWhile isBlank cs),
    trimRight_trimRight]

theorem trim_trim (s : String) : trim (trim s) = trim s := by
  rw [trim, trim, String.toList_ofList, trimChars_trimChars]

end LispCore.Text
