/-!
# Double-precision numbers

A `Double` is the bit pattern of a 64-bit binary floating-point number: a sign, eleven exponent
bits and 52 fraction bits. Two numbers are compared by `key`, the signed magnitude of the pattern:
among numbers it is monotone, it identifies the two zeros, and no NaN takes part in the order.
-/

namespace LispCore

structure Double where
  bits : UInt64
  deriving DecidableEq, Repr, Inhabited

namespace Double

/-- The weight of the sign bit. -/
def signWeight : Nat := 0x8000000000000000

/-- The weight of the lowest exponent bit, and so the number of fractions. -/
def exponentWeight : Nat := 0x10000000000000

/-- The pattern of the positive infinity; every larger magnitude is a NaN. -/
def infMagnitude : Nat := 0x7FF0000000000000

def ofMagnitude (negative : Bool) (magnitude : Nat) : Double :=
  ⟨(magnitude + if negative then signWeight else 0).toUInt64⟩

def infinity (negative : Bool) : Double := ofMagnitude negative infMagnitude

def nan : Double := ⟨0x7FF8000000000000⟩

def isNegative (x : Double) : Bool := signWeight ≤ x.bits.toNat

/-- The pattern without its sign. -/
def magnitude (x : Double) : Nat := x.bits.toNat % signWeight

def isNaN (x : Double) : Bool := infMagnitude < x.magnitude

def isInfinite (x : Double) : Bool := x.magnitude == infMagnitude

/-- A finite number is `m * 2 ^ q` up to its sign, where `(m, q)` is this pair. -/
def decode (x : Double) : Nat × Int :=
  let fraction := x.magnitude % exponentWeight
  match x.magnitude / exponentWeight with
  | 0 => (fraction, -1074)
  | e + 1 => (fraction + exponentWeight, (e : Int) - 1074)

/-- The place of a number on the number line; the two zeros share one. -/
def key (x : Double) : Int :=
  if x.isNegative then -x.magnitude else x.magnitude

/-- Equality of numbers: a NaN equals nothing, and the two zeros are equal. -/
def beq (x y : Double) : Bool :=
  !x.isNaN && !y.isNaN && x.key == y.key

instance : BEq Double := ⟨beq⟩

/-- The order of two numbers; none when one is a NaN. -/
def compare? (x y : Double) : Option Ordering :=
  if x.isNaN || y.isNaN then none else some (compare x.key y.key)

end Double

end LispCore
