import FieldGraph.Number.Rounding

/-!
# Shortest decimals

The magnitudes that round to a finite magnitude `m · 2 ^ q` of a binary format form an interval
around it.  Its shortest decimal is the point of the interval with the fewest digits, and of those
the nearest one.  If a decimal grid has a point in the interval, then one of the two neighbours of
the magnitude on that grid lies in it, so that two candidates a grid are enough.
-/

namespace FieldGraph.Number

/-- The non-negative decimal `digits · 10 ^ exponent`. -/
structure Decimal where
  digits : Nat
  exponent : Int
deriving DecidableEq, Repr

/-- Where an exact tie between two decimals of one length goes. -/
inductive Tie where
  | up
  | even
deriving DecidableEq, Repr

/-- The interval of reals that round to one magnitude, in units of `2 ^ unit`: its ends, the
magnitude itself, and whether the ends belong to it. -/
structure RoundingInterval where
  low : Nat
  mid : Nat
  high : Nat
  unit : Int
  closed : Bool
deriving DecidableEq, Repr

/-- The interval around an encoded finite magnitude.  The gap below a power of two is half the gap
above it, and the ends round to the even significand. -/
def BinaryFormat.interval (f : BinaryFormat) (code : Nat) : RoundingInterval :=
  let (m, q) := f.parts code
  let below := if m = 1 <<< (f.precision - 1) ∧ f.leastExponent < q then 1 else 2
  ⟨4 * m - below, 4 * m, 4 * m + 2, q - 2, m % 2 == 0⟩

namespace Decimal

/-- `digits · 10 ^ exponent` and `n · 2 ^ unit` as numerators over one denominator. -/
def align (d : Decimal) (n : Nat) (unit : Int) : Nat × Nat :=
  ((d.digits * tenPow d.exponent.toNat) <<< (-unit).toNat,
    (n <<< unit.toNat) * tenPow (-d.exponent).toNat)

/-- Compare a decimal with `n · 2 ^ unit`. -/
def cmp (d : Decimal) (n : Nat) (unit : Int) : Ordering :=
  let (a, b) := d.align n unit
  compare a b

/-- The decimal lies in the interval. -/
def within (d : Decimal) (i : RoundingInterval) : Bool :=
  match d.cmp i.low i.unit, d.cmp i.high i.unit with
  | .gt, .lt => true
  | .eq, _ | _, .eq => i.closed
  | _, _ => false

/-- The greatest point of the grid of step `10 ^ exponent` that is not above `n · 2 ^ unit`. -/
def floorAt (n : Nat) (unit exponent : Int) : Decimal :=
  ⟨((n <<< unit.toNat) * tenPow (-exponent).toNat) / (tenPow exponent.toNat <<< (-unit).toNat),
    exponent⟩

/-- The next point of the same grid. -/
def next (d : Decimal) : Decimal := ⟨d.digits + 1, d.exponent⟩

/-- Of two neighbours on a grid the one nearer to the middle of the interval. -/
def nearer (tie : Tie) (i : RoundingInterval) (d : Decimal) : Decimal :=
  -- the middle of the two neighbours is `2 · digits + 1` on a grid of half the step
  match (⟨2 * d.digits + 1, d.exponent⟩ : Decimal).cmp (2 * i.mid) i.unit with
  | .gt => d
  | .lt => d.next
  | .eq => if tie = .even ∧ d.digits % 2 = 0 then d else d.next

/-- The candidate of the grid of step `10 ^ exponent`, if a neighbour lies in the interval. -/
def candidate? (tie : Tie) (i : RoundingInterval) (exponent : Int) : Option Decimal :=
  let d := floorAt i.mid i.unit exponent
  match d.within i, d.next.within i with
  | true, true => some (nearer tie i d)
  | true, false => some d
  | false, true => some d.next
  | false, false => none

/-- The first grid with a candidate, refining the step `budget` times at most. -/
def search (tie : Tie) (i : RoundingInterval) : Nat → Int → Decimal
  | 0, exponent => floorAt i.mid i.unit exponent
  | budget + 1, exponent =>
    match candidate? tie i exponent with
    | some d => d
    | none => search tie i budget (exponent - 1)

/-- A power of ten that is above `n · 2 ^ unit`, by its exponent.

A number of `b` bits is below `2 ^ b`, and `2 ^ 10` exceeds `10 ^ 3`, so that `b · 4 / 13 + 1`
digits are enough on either side of the point. -/
def orderBound (n : Nat) (unit : Int) : Int :=
  let bits : Int := n.log2 + 1 + unit
  if 0 ≤ bits then bits * 4 / 13 + 1 else bits * 3 / 10 + 1

end Decimal

/-- The shortest decimal that rounds to an encoded finite magnitude.  Seventeen digits tell all
magnitudes of double precision apart, and a few more grids cover the slack of the bound. -/
def BinaryFormat.shortest (f : BinaryFormat) (tie : Tie) (code : Nat) : Decimal :=
  if code = 0 then ⟨0, 0⟩
  else
    let i := f.interval code
    Decimal.search tie i 24 (Decimal.orderBound i.mid i.unit)

end FieldGraph.Number
