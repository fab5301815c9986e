import FieldGraph.Vector

/-!
# Environments

The light, the two materials of the checkered surface, the background, and how finely shadows and
creases are sampled.
-/

namespace FieldGraph

structure Material where
  color : Vec3 := Vec3.splat 0.75
  specular : Scalar := 0.5
  /-- The share of the reflected ray's color. -/
  reflectivity : Scalar := 0.1
deriving DecidableEq

instance : Inhabited Material := ⟨{}⟩

structure Environment where
  lightDirection : Vec3 := ⟨0.8, 0.9, -0.6⟩
  ambient : Vec3 := ⟨0.12, 0.13, 0.16⟩
  /-- The exponent of specular highlights. -/
  shininess : Scalar := 32.0
  /-- The material of even cells. -/
  evenMaterial : Material := ⟨⟨0.8, 0.78, 0.74⟩, 0.5, 0.15⟩
  /-- The material of odd cells. -/
  oddMaterial : Material := ⟨⟨0.32, 0.34, 0.4⟩, 0.25, 0.05⟩
  /-- The edge length of a cell. -/
  checkerPeriod : Scalar := 1.0
  skyColor : Vec3 := ⟨0.62, 0.74, 0.88⟩
  /-- The distance at which surfaces are half faded into the sky. -/
  fogDistance : Scalar := 40.0
  fogFalloff : Scalar := 6.0
  occlusionSamples : UInt32 := 5
  occlusionStep : Scalar := 0.06
  occlusionStrength : Scalar := 2.5
  /-- Larger values give harder shadows. -/
  shadowSoftness : Scalar := 8.0
  /-- Light that is left in the deepest shadow. -/
  shadowBias : Scalar := 0.2
  shadowIterations : UInt32 := 64
  /-- The distance after which nothing hides the light. -/
  shadowDistance : Scalar := 20.0
deriving DecidableEq

namespace Environment

instance : Inhabited Environment := ⟨{}⟩

/-- The direction towards the light, or straight up where none is given. -/
def light (e : Environment) : Vec3 := e.lightDirection.normalize?.getD Vec3.unitY

/-- The cell that holds a point is odd. -/
def isOddCell (e : Environment) (p : Vec3) : Bool :=
  let cell := (p / e.checkerPeriod).map Float32.floor
  1.0 ≤ Scalar.floorMod (cell.x + cell.y + cell.z) 2.0

def materialAt (e : Environment) (p : Vec3) : Material :=
  if e.isOddCell p then e.oddMaterial else e.evenMaterial

/-- The share of its own color that a surface keeps at a distance. -/
def rolloff (e : Environment) (traveled : Scalar) : Scalar :=
  1.0 - Scalar.logistic ((traveled - e.fogDistance) / e.fogFalloff)

end Environment

end FieldGraph
