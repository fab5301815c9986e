import FieldGraph.Number.Decimal

/-!
# Decimals as text

Positional notation writes every digit down to the unit, or past the point as far as the digits
reach.
-/

namespace FieldGraph.Number

/-- The decimal digits of a natural number, most significant first. -/
def natDigits (n : Nat) : List Char := Nat.toDigits 10 n

namespace Decimal

/-- The exponent of the leading digit. -/
def order (d : Decimal) : Int := (natDigits d.digits).length - 1 + d.exponent

/-- The digits before and after the point, the first list never empty. -/
def positional (d : Decimal) : List Char × List Char :=
  let digits := natDigits d.digits
  if 0 ≤ d.exponent then (digits ++ List.replicate d.exponent.toNat '0', [])
  else
    let places := (-d.exponent).toNat
    if places < digits.length then digits.splitAt (digits.length - places)
    else (['0'], List.replicate (places - digits.length) '0' ++ digits)

/-- Positional text; a point is written only before digits. -/
def plain (d : Decimal) : List Char :=
  match d.positional with
  | (whole, []) => whole
  | (whole, fraction) => whole ++ '.' :: fraction

end Decimal

end FieldGraph.Number
