import FieldGraph.Render.Camera
import FieldGraph.Render.Environment
import FieldGraph.Render.Pixels

/-!
# Settings and requests

What a render needs to know besides the field.
-/

namespace FieldGraph

structure RenderSettings where
  /-- The steps a ray may take. -/
  maxIterations : UInt32 := 256
  /-- The distance after which a ray is a miss. -/
  maxDistance : Scalar := 100.0
  /-- The distance from the surface below which a ray is a hit. -/
  epsilon : Scalar := 1e-3
  /-- The share of the sampled distance that a step advances. -/
  stepSize : Scalar := 1.0
  /-- The reflections that may follow one another. -/
  reflectionDepth : UInt32 := 4
  /-- How far from the surface a reflected ray starts. -/
  reflectionOffset : Scalar := 1e-2
  environment : Environment := {}
deriving DecidableEq

instance : Inhabited RenderSettings := ⟨{}⟩

structure RenderRequest where
  width : UInt32 := 320
  height : UInt32 := 240
  /-- The number of workers; zero asks for as many as the machine has cores. -/
  workers : UInt64 := 0
  format : PixelFormat := .rgba8
  camera : Camera := {}
  settings : RenderSettings := {}
deriving DecidableEq

namespace RenderRequest

instance : Inhabited RenderRequest := ⟨{}⟩

/-- The number of workers on a machine with a number of cores. -/
def workerCount (r : RenderRequest) (cores : Nat) : Nat :=
  if r.workers = 0 then max cores 1 else r.workers.toNat

def frame (r : RenderRequest) : CameraFrame := r.camera.frame r.width r.height

end RenderRequest

end FieldGraph
