/-!
# Stripes

An image is cut into stripes of consecutive rows, one for each worker.  All stripes have the same
number of rows, but the last one may be shorter.  What is cut are the bytes of the image, and all
sizes are words of 64 bits.
-/

namespace FieldGraph

/-- Consecutive bytes of an image, from the beginning of a row on. -/
structure Stripe where
  firstRow : Nat
  bytes : Nat
deriving DecidableEq, Repr

namespace Stripe

/-- The quotient, rounded up. -/
def ceilDiv (a b : Nat) : Nat := (a + b - 1) / b

/-- The rows of a stripe when `height` rows are shared out. -/
def rowsEach (height workers : Nat) : Nat := max (ceilDiv height workers) 1

/-- Cut `bytes` bytes into stripes of `each` bytes, each of which begins `rows` rows below the one
before. -/
def cut (bytes each rows : Nat) : List Stripe :=
  (List.range (ceilDiv bytes each)).map fun i => ⟨i * rows, min each (bytes - i * each)⟩

/-- The bytes of a stripe of some rows.  There is at least one, so that a stripe is never empty. -/
def bytesEach (width : UInt32) (rows : Nat) : Nat :=
  max (UInt64.ofNat rows * (width.toUInt64 * 4)).toNat 1

/-- The stripes of an image for a number of workers. -/
def share (width height : UInt32) (workers : Nat) : List Stripe :=
  let rows := rowsEach height.toNat workers
  cut (width.toUInt64 * 4 * height.toUInt64).toNat (bytesEach width rows) rows

/-- The number of whole pixels of a stripe. -/
def pixels (s : Stripe) : Nat := s.bytes / 4

/-- The column of pixel `k` of a stripe. -/
def column (width k : Nat) : Nat := k % width

/-- The row of pixel `k` of a stripe. -/
def row (s : Stripe) (width k : Nat) : Nat := s.firstRow + k / width

end Stripe

end FieldGraph
