import FieldGraph.Vector

/-!
# Cameras

A camera looks from an origin to a target.  For an image of a given size it is resolved to a frame,
which sends image positions to the directions of their rays.
-/

namespace FieldGraph

structure Camera where
  origin : Vec3 := ⟨0.0, 1.5, -5.0⟩
  target : Vec3 := Vec3.zero
  up : Vec3 := Vec3.unitY
  /-- The vertical field of view in degrees. -/
  fov : Scalar := 60.0
  /-- Take the right direction from the up vector and the origin instead of the forward direction
  and the up vector.  The two agree where the target is the world's origin. -/
  rightFromOrigin : Bool := true
deriving DecidableEq

/-- A camera resolved for one image. -/
structure CameraFrame where
  origin : Vec3
  forward : Vec3
  right : Vec3
  up : Vec3
  /-- Half the height of the image plane at distance one. -/
  halfHeight : Scalar
  aspect : Scalar
  width : Scalar
  height : Scalar
deriving DecidableEq

namespace Camera

instance : Inhabited Camera := ⟨{}⟩

/-- The default camera, looking from one point to another. -/
def lookAt (origin target : Vec3) : Camera := { origin, target }

def forward (c : Camera) : Vec3 := (c.target - c.origin).normalize

def right (c : Camera) : Vec3 :=
  if c.rightFromOrigin then (c.up.cross c.origin).normalize else (c.forward.cross c.up).normalize

/-- The up direction of the image, at right angles to the other two. -/
def imageUp (c : Camera) : Vec3 := c.right.cross c.forward

/-- The frame for an image of `width` by `height` pixels; an empty image counts as one row. -/
def frame (c : Camera) (width height : UInt32) : CameraFrame where
  origin := c.origin
  forward := c.forward
  right := c.right
  up := c.imageUp
  halfHeight := (Scalar.radians c.fov * 0.5).tan
  aspect := width.toFloat32 / (max height 1).toFloat32
  width := width.toFloat32
  height := (max height 1).toFloat32

end Camera

/-- The direction of the ray through an image position in pixels, `y` growing downwards. -/
def CameraFrame.ray (f : CameraFrame) (x y : Scalar) : Vec3 :=
  let u := (2.0 * x / f.width - 1.0) * f.aspect * f.halfHeight
  let v := (1.0 - 2.0 * y / f.height) * f.halfHeight
  (f.forward + f.right * u + f.up * v).normalize

end FieldGraph
