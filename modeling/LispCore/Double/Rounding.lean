import LispCore.Double
import LispCore.Text.Numeral

/-!
# Rounding decimals to doubles

`ofRatio` rounds a fraction to the nearest double, halves to the even significand. `ofDecimal`
does so for a decimal, and `parse?` reads the usual decimal notation. All arithmetic is exact.
-/

namespace LispCore.Double

/-- The quotient rounded to nearest, halves to even. -/
def divNearest (num den : Nat) : Nat :=
  let q := num / den
  let r := num % den
  if 2 * r < den || (2 * r == den && q % 2 == 0) then q else q + 1

/-- The fraction `num / den` in units of `2 ^ q`, as a fraction again. -/
def inUnits (num den : Nat) (q : Int) : Nat × Nat :=
  (num * Nat.pow 2 (-q).toNat, den * Nat.pow 2 q.toNat)

/-- The exponent of the last significand bit of `num / den`: the significand has 53 bits unless
that would fall below the smallest exponent. -/
def unitExponent (num den : Nat) : Int :=
  let q : Int := (num.log2 : Int) - den.log2 - 53
  let (n, d) := inUnits num den q
  max (-1074) (if 2 * exponentWeight ≤ n / d then q + 1 else q)

/-- The double nearest to `num / den`. A result at or beyond the largest exponent is infinite. -/
def ofRatio (negative : Bool) (num den : Nat) : Double :=
  if num = 0 then ofMagnitude negative 0
  else
    let q := unitExponent num den
    let (n, d) := inUnits num den q
    ofMagnitude negative (min infMagnitude ((q + 1074).toNat * exponentWeight + divNearest n d))

/-- The double nearest to `digits * 10 ^ exponent`. Exponents beyond every double are decided by
the size of the number alone, so that no large power is formed. -/
def ofDecimal (negative : Bool) (digits : Nat) (exponent : Int) : Double :=
  let size : Int := exponent + (Nat.toDigits 10 digits).length
  if digits = 0 || size < -400 then ofMagnitude negative 0
  else if 400 < size then infinity negative
  else ofRatio negative (digits * Nat.pow 10 exponent.toNat) (Nat.pow 10 (-exponent).toNat)

/-! ## Decimal notation -/

/-- The exponent part of a decimal; an absent one is zero. -/
def exponent? : List Char → Option Int
  | [] => some 0
  | c :: cs => if c = 'e' || c = 'E' then Numeral.integer? cs else none

/-- An unsigned decimal: digits with an optional point, at least one digit, an optional
exponent. -/
def decimal? (negative : Bool) (cs : List Char) : Option Double :=
  let whole := cs.takeWhile Char.isDigit
  let (fraction, tail) : List Char × List Char := match cs.dropWhile Char.isDigit with
    | '.' :: r => (r.takeWhile Char.isDigit, r.dropWhile Char.isDigit)
    | r => ([], r)
  if whole.isEmpty && fraction.isEmpty then none
  else (exponent? tail).map fun e =>
    ofDecimal negative (Numeral.ofDigits (whole ++ fraction)) (e - fraction.length)

/-- Reads a number: a signed decimal, or one of the words for infinity and NaN in any case. -/
def parse? (cs : List Char) : Option Double :=
  let (negative, body) := Numeral.takeSign cs
  let word := String.ofList (body.map Char.toLower)
  if word = "inf" || word = "infinity" then some (infinity negative)
  else if word = "nan" then some nan
  else decimal? negative body

end LispCore.Double
