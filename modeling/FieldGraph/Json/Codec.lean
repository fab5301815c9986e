import FieldGraph.Json.Reader
import FieldGraph.Json.Printer
import FieldGraph.Scalar

/-!
# Codecs

A codec says how the values of a type are written and which text is accepted for them.  Counts have
to be written as integers in their range.  A scalar takes any number that double precision can hold;
an integer of 64 bits is rounded once, any other number is read in double precision first and from
there rounded to a scalar.
-/

namespace FieldGraph.Json

/-- The written form of a type's values. -/
structure Codec (α : Type) where
  encode : α → Json
  decode? : Json → Option α

namespace Codec

variable {α : Type}

/-- The text of a value. -/
def write (c : Codec α) (a : α) : String := (c.encode a).pretty

/-- The value that a text stands for. -/
def read? (c : Codec α) (text : String) : Option α := (parse? text).bind c.decode?

end Codec

/-! ## Truth values and counts -/

def truth : Codec Bool where
  encode := bool
  decode?
    | bool b => some b
    | _ => none

/-- A natural number below a bound. -/
def natBelow? (bound : Nat) : Json → Option Nat
  | number n =>
    if n.isInteger && !n.negative && NumberLiteral.digitsValue n.whole < bound then
      some (NumberLiteral.digitsValue n.whole)
    else none
  | _ => none

def uint32 : Codec UInt32 where
  encode n := number (.ofNat n.toNat)
  decode? v := (natBelow? UInt32.size v).map UInt32.ofNat

def uint64 : Codec UInt64 where
  encode n := number (.ofNat n.toNat)
  decode? v := (natBelow? UInt64.size v).map UInt64.ofNat

/-! ## Scalars -/

/-- The literal of a finite scalar: the fewest digits that read back, a tie going to the even one.
Magnitudes from `10 ^ (-6)` up to `10 ^ 13` are written positionally. -/
def scalarLiteral (x : Scalar) : NumberLiteral :=
  let d := Number.single.shortest .even x.magnitude
  if d.digits = 0 ∨ (-6 ≤ d.order ∧ d.order < 13) then .pointed x.signBit d
  else .scientific x.signBit d

/-- The magnitudes of integers that are rounded to a scalar directly: those of 64 bits, with a sign
if they are negative.  A negative zero is not one of them. -/
def isMachineInteger (negative : Bool) (n : Nat) : Bool :=
  if negative then 0 < n && n ≤ UInt64.size / 2 else n < UInt64.size

/-- The scalar that a literal stands for, if double precision can hold the number. -/
def scalarOf? (n : NumberLiteral) : Option Scalar :=
  let digits := n.decimal.digits
  let d := n.leading
  if n.isInteger && isMachineInteger n.negative digits then some (.ofInteger n.negative digits)
  else if Number.Double.ofDecimal d.digits d.exponent < Number.double.infinity then
    some (.ofDecimal n.negative d.digits d.exponent)
  else none

/-- Numbers; what is not finite is written as null, which is not read. -/
def scalar : Codec Scalar where
  encode x := if x.isFinite then number (scalarLiteral x) else null
  decode?
    | number n => scalarOf? n
    | _ => none

/-! ## Arrays of fixed length -/

/-- Two values of one type. -/
def pair {α : Type} (c : Codec α) : Codec (α × α) where
  encode p := array [c.encode p.1, c.encode p.2]
  decode?
    | array [a, b] => do return (← c.decode? a, ← c.decode? b)
    | _ => none

/-- Three values of one type. -/
def triple {α : Type} (c : Codec α) : Codec (α × α × α) where
  encode t := array [c.encode t.1, c.encode t.2.1, c.encode t.2.2]
  decode?
    | array [x, y, z] => do return (← c.decode? x, ← c.decode? y, ← c.decode? z)
    | _ => none

end FieldGraph.Json
