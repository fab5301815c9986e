import FieldGraph.Number.Text

/-!
# Scalars

Every quantity of a field is a single precision number, and every step of a computation is rounded
to single precision.  This module holds the scalar functions the operators and the tracer are made
of, and its text in listings and messages.
-/

namespace FieldGraph

/-- A single precision number. -/
abbrev Scalar := Float32

namespace Scalar

/-! ## Encodings -/

/-- The sign bit. -/
def signBit (x : Scalar) : Bool := 0x80000000 ≤ x.toBits

/-- The exponent and significand fields, read as one number. -/
def magnitude (x : Scalar) : Nat := x.toBits.toNat % 0x80000000

/-- The scalar with a sign and an encoded magnitude. -/
def ofMagnitude (negative : Bool) (code : Nat) : Scalar :=
  Float32.ofBits (UInt32.ofNat (code + if negative then 0x80000000 else 0))

/-- Read a decimal: in double precision first, and from there to the nearest scalar. -/
def ofDecimal (negative : Bool) (digits : Nat) (exponent : Int) : Scalar :=
  ofMagnitude negative
    (Number.double.narrow Number.single (Number.Double.ofDecimal digits exponent))

/-- The scalar nearest to an integer. -/
def ofInteger (negative : Bool) (n : Nat) : Scalar :=
  ofMagnitude negative (Number.single.nearest n 1)

/-- The scalar nearest to a natural number. -/
def ofNat (n : Nat) : Scalar := ofInteger false n

/-! ## Constants and functions -/

def pi : Scalar := Float32.ofBits 0x40490fdb

def nan : Scalar := 0.0 / 0.0

/-- Floored remainder `a - b * floor (a / b)`, which takes the sign of the divisor. -/
def floorMod (a b : Scalar) : Scalar := a - b * (a / b).floor

/-- Degrees to radians. -/
def radians (x : Scalar) : Scalar := x * (pi / 180.0)

/-- Radians to degrees. -/
def degrees (x : Scalar) : Scalar := x * (180.0 / pi)

/-- Limit to an interval; NaN stays NaN. -/
def clamp (x lo hi : Scalar) : Scalar :=
  if x < lo then lo else if hi < x then hi else x

/-- Limit to the unit interval. -/
def saturate (x : Scalar) : Scalar := x.clamp 0.0 1.0

/-- The standard logistic curve `1 / (1 + exp (-x))`. -/
def logistic (x : Scalar) : Scalar := 1.0 / (1.0 + (-x).exp)

/-- The smaller of two numbers, or the other one where one is NaN. -/
def min (a b : Scalar) : Scalar :=
  if a.isNaN then b else if b < a then b else a

/-- The larger of two numbers, or the other one where one is NaN. -/
def max (a b : Scalar) : Scalar :=
  if a.isNaN then b else if a < b then b else a

/-- Round to the nearest byte, a half going up; NaN and negative numbers give 0. -/
def toByte (x : Scalar) : UInt8 := x.round.toUInt8

/-! ## Text -/

/-- A sign before the text of a magnitude. -/
def signed (x : Scalar) (text : List Char) : String :=
  String.ofList (if x.signBit then '-' :: text else text)

/-- The fewest digits that read back, always positional. -/
def text (x : Scalar) : String :=
  if x.isNaN then "NaN"
  else if x.isInf then x.signed "inf".toList
  else x.signed (Number.single.shortest .up x.magnitude).plain

end Scalar

end FieldGraph
