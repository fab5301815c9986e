import FieldGraph.Scalar

/-!
# Progress

How many pixels of an image are done.
-/

namespace FieldGraph

structure Progress where
  done : Nat
  total : Nat
deriving DecidableEq, Repr

namespace Progress

/-- The completed share, at most one; an empty image is complete. -/
def fraction (p : Progress) : Scalar :=
  if p.total = 0 then 1.0 else Scalar.min (Scalar.ofNat p.done / Scalar.ofNat p.total) 1.0

end Progress

end FieldGraph
