import LispCore.Double

/-!
# Shortest decimals

`shortest` gives the decimal with the fewest digits that rounds back to a given double; of two
such decimals the nearer one is taken, and the larger one when both are equally near. `display`
writes it positionally. The double and the ends of the interval that rounds to it are brought to
one exact decimal scale first, so that shortening is a division by a power of ten.
-/

namespace LispCore.Double

/-- The reals that round to a double, on a common decimal scale: `value`, `lo` and `hi` count
units of `10 ^ scale`, and the two ends belong to the interval when `closed` holds. -/
structure Neighborhood where
  value : Nat
  lo : Nat
  hi : Nat
  scale : Int
  closed : Bool

/-- The neighborhood of `m * 2 ^ q`. Below a power of two the gap is half as wide. -/
def neighborhood (m : Nat) (q : Int) : Neighborhood :=
  let quarter := q - 2
  let unit := Nat.pow 2 quarter.toNat * Nat.pow 5 (-quarter).toNat
  let below := if m = exponentWeight && -1074 < q then 1 else 2
  { value := 4 * m * unit
    lo := (4 * m - below) * unit
    hi := (4 * m + 2) * unit
    scale := min quarter 0
    closed := m % 2 == 0 }

def Neighborhood.contains (b : Neighborhood) (x : Nat) : Bool :=
  if b.closed then b.lo ≤ x && x ≤ b.hi else b.lo < x && x < b.hi

/-- The nearer multiple of `10 ^ j` in the neighborhood, as its factor. -/
def Neighborhood.candidate? (b : Neighborhood) (j : Nat) : Option Nat :=
  let grid := Nat.pow 10 j
  let d := b.value / grid
  match b.contains (d * grid), b.contains ((d + 1) * grid) with
  | true, true => some (if 2 * b.value < (2 * d + 1) * grid then d else d + 1)
  | true, false => some d
  | false, true => some (d + 1)
  | false, false => none

/-- Searches from the coarsest grid to the finest. -/
def Neighborhood.search (b : Neighborhood) : Nat → Nat × Int
  | 0 => (b.value, b.scale)
  | j + 1 => match b.candidate? (j + 1) with
    | some d => (d, b.scale + (j + 1 : Nat))
    | none => b.search j

/-- The digits and the exponent of ten of the shortest decimal that rounds to `m * 2 ^ q`. -/
def shortest (m : Nat) (q : Int) : Nat × Int :=
  let b := neighborhood m q
  b.search (Nat.toDigits 10 b.value).length

/-- Writes `d * 10 ^ e` without an exponent; an integral number gets one zero after the point. -/
def positional (d : Nat) (e : Int) : List Char :=
  let ds := Nat.toDigits 10 d
  if 0 ≤ e then ds ++ List.replicate e.toNat '0' ++ ['.', '0']
  else
    let places := (-e).toNat
    let padded := List.replicate (places + 1 - ds.length) '0' ++ ds
    padded.take (padded.length - places) ++ '.' :: padded.drop (padded.length - places)

/-- The written form of a number. -/
def display (x : Double) : List Char :=
  if x.isNaN then "##NaN".toList
  else if x.isInfinite then (if x.isNegative then "##-Inf" else "##Inf").toList
  else
    let (m, q) := x.decode
    let body := if m = 0 then ['0', '.', '0'] else
      let (d, e) := shortest m q
      positional d e
    if x.isNegative then '-' :: body else body

end LispCore.Double
