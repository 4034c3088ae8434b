/-!
# Integer numerals

The decimal digits of a text as a number, with an optional sign in front.
-/

namespace LispCore.Numeral

def digitValue (c : Char) : Nat := c.toNat - '0'.toNat

/-- The number written by a run of decimal digits. -/
def ofDigits (cs : List Char) : Nat :=
  cs.foldl (fun n c => 10 * n + digitValue c) 0

/-- Takes an optional sign off; the flag tells a minus. -/
def takeSign : List Char → Bool × List Char
  | '-' :: cs => (true, cs)
  | '+' :: cs => (false, cs)
  | cs => (false, cs)

/-- An integer with an optional sign: at least one digit and nothing else. -/
def integer? (cs : List Char) : Option Int :=
  let (negative, ds) := takeSign cs
  if ds.isEmpty || !ds.all Char.isDigit then none
  else some (if negative then -(ofDigits ds : Int) else ofDigits ds)

/-- An integer that fits 64 bits. -/
def int64? (cs : List Char) : Option Int64 :=
  match integer? cs with
  | some n =>
    if -0x8000000000000000 ≤ n && n < 0x8000000000000000 then some (Int64.ofInt n) else none
  | none => none

end LispCore.Numeral
