/-!
# Rounding exact quotients to binary floating point

A finite magnitude of a binary format is `m · 2 ^ q` with `m < 2 ^ precision` and `q` at least the
format's least exponent.  Read as one natural number, its exponent and significand fields count the
magnitudes of the format in order, so that rounding a quotient up past a power of two, or past the
largest finite magnitude, needs no case of its own.
-/

namespace FieldGraph.Number

/-- A binary floating point format, without its sign. -/
structure BinaryFormat where
  /-- Bits of the significand, the leading one included. -/
  precision : Nat
  /-- Exponent of the last bit of the smallest magnitudes. -/
  leastExponent : Int
  /-- Number of magnitudes below infinity; this is also how infinity is encoded. -/
  infinity : Nat
deriving DecidableEq, Repr

/-- Single precision, the format of `Float32`. -/
def single : BinaryFormat := ⟨24, -149, 0x7f800000⟩

/-- Double precision, in which decimals are read before they are narrowed. -/
def double : BinaryFormat := ⟨53, -1074, 0x7ff0000000000000⟩

/-- A power of ten. -/
def tenPow (k : Nat) : Nat := Nat.pow 10 k

/-- The greatest `k` with `2 ^ k ≤ num / den`, for positive `num` and `den`. -/
def floorLog2 (num den : Nat) : Int :=
  let k : Int := (num.log2 : Int) - den.log2
  if den <<< k.toNat ≤ num <<< (-k).toNat then k else k - 1

/-- The integer nearest to `num / den`; a half goes to the even neighbour. -/
def divNearestEven (num den : Nat) : Nat :=
  let q := num / den
  let r := num % den
  if den < 2 * r || (2 * r == den && q % 2 == 1) then q + 1 else q

namespace BinaryFormat

/-- The encoding of the magnitude nearest to `num / den`, ties going to the even significand and
anything past the largest finite magnitude to infinity. -/
def nearest (f : BinaryFormat) (num den : Nat) : Nat :=
  if num = 0 then 0 else
    let q := max (floorLog2 num den - (f.precision - 1 : Nat)) f.leastExponent
    let m := divNearestEven (num <<< (-q).toNat) (den <<< q.toNat)
    min f.infinity (((q - f.leastExponent).toNat <<< (f.precision - 1)) + m)

/-- The significand and exponent of an encoded finite magnitude. -/
def parts (f : BinaryFormat) (code : Nat) : Nat × Int :=
  let half := 1 <<< (f.precision - 1)
  if code < half then (code, f.leastExponent)
  else (half + code % half, f.leastExponent + (code / half : Nat) - 1)

/-- The encoding of the magnitude nearest to a product of finite magnitudes. -/
def mul (f : BinaryFormat) (a b : Nat) : Nat :=
  let (m, p) := f.parts a
  let (n, q) := f.parts b
  f.nearest ((m * n) <<< (p + q).toNat) (1 <<< (-(p + q)).toNat)

/-- The encoding of the magnitude nearest to a quotient of finite magnitudes, the second of which is
not zero. -/
def div (f : BinaryFormat) (a b : Nat) : Nat :=
  let (m, p) := f.parts a
  let (n, q) := f.parts b
  f.nearest (m <<< (p - q).toNat) (n <<< (q - p).toNat)

/-- Round a magnitude of one format to another, infinity staying infinity. -/
def narrow (wide f : BinaryFormat) (code : Nat) : Nat :=
  if code ≥ wide.infinity then f.infinity
  else
    let (m, q) := wide.parts code
    f.nearest (m <<< q.toNat) (1 <<< (-q).toNat)

end BinaryFormat

/-! ## Decimals in double precision

A decimal is read in steps: its digits are rounded to double precision and then multiplied or divided
by a power of ten, which is rounded as well.  This is exact reading, with one rounding, as long as the
digits and the power have no more bits than double precision. -/

namespace Double

/-- The exponent of the largest power of ten in range. -/
def largestPower : Nat := 308

/-- The encoding of a power of ten in range. -/
def power (k : Nat) : Nat := double.nearest (tenPow k) 1

/-- Divide by a power of ten; those that are out of range are taken in parts. -/
def lower (code k : Nat) : Nat :=
  if k ≤ largestPower then double.div code (power k)
  else if code = 0 then 0
  else lower (double.div code (power largestPower)) (k - largestPower)
termination_by k
decreasing_by
  have : 0 < largestPower := by decide
  omega

/-- The encoding of `digits · 10 ^ exponent`, or of infinity if it is out of range. -/
def ofDecimal (digits : Nat) (exponent : Int) : Nat :=
  let code := double.nearest digits 1
  if exponent < 0 then lower code (-exponent).toNat
  else if exponent ≤ largestPower then double.mul code (power exponent.toNat)
  else if code = 0 then 0
  else double.infinity

end Double

end FieldGraph.Number
