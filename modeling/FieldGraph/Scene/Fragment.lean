import FieldGraph.Graph.Build

/-!
# Fragments

Parts that distance fields are put together from, each an edit that yields the node of its result.
-/

namespace FieldGraph.Fragment

open FieldGraph.Graph (Edit)
open FieldGraph.Graph.Edit

def scalar (x : Scalar) : Edit NodeId := constant (.float x)

def vector (v : Vec3) : Edit NodeId := constant (.float3 v)

/-- The distance `length (p - center) - radius` to a sphere. -/
def sphere (p : NodeId) (center : Vec3) (radius : Scalar) : Edit NodeId := do
  let c ← vector center
  let offset ← binary .sub p c
  let len ← unary .length offset
  let r ← scalar radius
  binary .sub len r

/-- The height of a point above a horizontal plane. -/
def floor (p : NodeId) (height : Scalar) : Edit NodeId := do
  let y ← unary .y p
  let h ← scalar height
  binary .sub y h

/-- The distance to a box around the origin, by half its edges. -/
def cuboid (p : NodeId) (half : Vec3) : Edit NodeId := do
  let a ← unary .abs p
  let b ← vector half
  let q ← binary .sub a b
  let zero ← scalar 0.0
  let clamped ← binary .max q zero
  let outside ← unary .length clamped
  let qx ← unary .x q
  let qy ← unary .y q
  let qz ← unary .z q
  let yz ← binary .max qy qz
  let xyz ← binary .max qx yz
  let inside ← binary .min xyz zero
  binary .add outside inside

/-- A composite that moves a surface outwards, which rounds its edges. -/
def rounding (radius : Scalar) : Edit NodeId := do
  let comp ← compositeUnary
  let d ← placeholder comp 0
  let r ← scalar radius
  let moved ← binary .sub d r
  let out ← output moved
  body comp out
  return comp

/-- A composite that joins two surfaces. -/
def union : Edit NodeId := do
  let comp ← compositeBinary
  let a ← placeholder comp 0
  let b ← placeholder comp 1
  let nearer ← binary .min a b
  let out ← output nearer
  body comp out
  return comp

/-- A composite that folds a coordinate into a period around zero. -/
def fold (period : Scalar) : Edit NodeId := do
  let comp ← compositeUnary
  let x ← placeholder comp 0
  let half ← scalar (period * 0.5)
  let whole ← scalar period
  let shifted ← binary .add x half
  let wrapped ← binary .mod shifted whole
  let centered ← binary .sub wrapped half
  let out ← output centered
  body comp out
  return comp

end FieldGraph.Fragment
