import FieldGraph.Scalar

/-!
# Vectors

Vectors of two, three and four scalars.  The order in which a sum is formed is part of each
definition, because every addition rounds.
-/

namespace FieldGraph

structure Vec2 where
  x : Scalar
  y : Scalar
deriving DecidableEq

structure Vec3 where
  x : Scalar
  y : Scalar
  z : Scalar
deriving DecidableEq

structure Vec4 where
  x : Scalar
  y : Scalar
  z : Scalar
  w : Scalar
deriving DecidableEq

namespace Vec2

def splat (a : Scalar) : Vec2 := ⟨a, a⟩

def map (f : Scalar → Scalar) (v : Vec2) : Vec2 := ⟨f v.x, f v.y⟩

def zipWith (f : Scalar → Scalar → Scalar) (u v : Vec2) : Vec2 := ⟨f u.x v.x, f u.y v.y⟩

def dot (u v : Vec2) : Scalar := u.x * v.x + u.y * v.y

def length (v : Vec2) : Scalar := (v.dot v).sqrt

end Vec2

namespace Vec3

def splat (a : Scalar) : Vec3 := ⟨a, a, a⟩

def zero : Vec3 := splat 0.0

def unitX : Vec3 := ⟨1.0, 0.0, 0.0⟩
def unitY : Vec3 := ⟨0.0, 1.0, 0.0⟩
def unitZ : Vec3 := ⟨0.0, 0.0, 1.0⟩

def map (f : Scalar → Scalar) (v : Vec3) : Vec3 := ⟨f v.x, f v.y, f v.z⟩

def zipWith (f : Scalar → Scalar → Scalar) (u v : Vec3) : Vec3 :=
  ⟨f u.x v.x, f u.y v.y, f u.z v.z⟩

instance : Add Vec3 := ⟨zipWith (· + ·)⟩
instance : Sub Vec3 := ⟨zipWith (· - ·)⟩
instance : Neg Vec3 := ⟨map (-·)⟩
/-- Scale every component. -/
instance : HMul Vec3 Scalar Vec3 := ⟨fun v a => v.map (· * a)⟩
/-- Divide every component. -/
instance : HDiv Vec3 Scalar Vec3 := ⟨fun v a => v.map (· / a)⟩

def dot (u v : Vec3) : Scalar := u.x * v.x + u.y * v.y + u.z * v.z

def cross (u v : Vec3) : Vec3 :=
  ⟨u.y * v.z - v.y * u.z, u.z * v.x - v.z * u.x, u.x * v.y - v.x * u.y⟩

def length (v : Vec3) : Scalar := (v.dot v).sqrt

/-- Multiply by the reciprocal of the length. -/
def normalize (v : Vec3) : Vec3 := v * (1.0 / v.length)

/-- Multiply by the reciprocal of the length where that is finite and positive. -/
def normalize? (v : Vec3) : Option Vec3 :=
  let r := 1.0 / v.length
  if r.isFinite ∧ 0.0 < r then some (v * r) else none

/-- Reflect about the plane with unit normal `n`. -/
def reflect (v n : Vec3) : Vec3 := v - n * (2.0 * v.dot n)

end Vec3

namespace Vec4

def splat (a : Scalar) : Vec4 := ⟨a, a, a, a⟩

def map (f : Scalar → Scalar) (v : Vec4) : Vec4 := ⟨f v.x, f v.y, f v.z, f v.w⟩

def zipWith (f : Scalar → Scalar → Scalar) (u v : Vec4) : Vec4 :=
  ⟨f u.x v.x, f u.y v.y, f u.z v.z, f u.w v.w⟩

/-- The products are summed in pairs: first with third, second with fourth. -/
def dot (u v : Vec4) : Scalar := (u.x * v.x + u.z * v.z) + (u.y * v.y + u.w * v.w)

def length (v : Vec4) : Scalar := (v.dot v).sqrt

end Vec4

end FieldGraph
