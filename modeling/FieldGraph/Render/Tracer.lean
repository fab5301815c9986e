import FieldGraph.DistanceField
import FieldGraph.Render.Settings

/-!
# Tracing rays

A ray is followed in steps of the field's distance until it comes close to the surface.  What it
meets is shaded from the field alone: its slope is the normal, its values along the normal and
towards the light tell creases and shadows.
-/

namespace FieldGraph

/-- Where a ray met the surface. -/
structure Hit where
  position : Vec3
  /-- The distance along the ray. -/
  traveled : Scalar
deriving DecidableEq

structure Tracer where
  field : Field
  settings : RenderSettings
  /-- The direction towards the light. -/
  light : Vec3

namespace Tracer

/-- A tracer for a field. -/
def ofSettings (field : Field) (settings : RenderSettings) : Tracer :=
  ⟨field, settings, settings.environment.light⟩

def environment (t : Tracer) : Environment := t.settings.environment

/-- Step along a ray for a number of steps, `traveled` being behind it. -/
def marchFrom (t : Tracer) (origin dir : Vec3) (traveled : Scalar) : Nat → Option Hit
  | 0 => none
  | steps + 1 =>
    let position := origin + dir * traveled
    let d := t.field position
    if d < t.settings.epsilon then some ⟨position, traveled⟩
    else
      let traveled := traveled + d * t.settings.stepSize
      if t.settings.maxDistance < traveled then none else t.marchFrom origin dir traveled steps

/-- Follow a ray until the surface is closer than epsilon.  Going too far or running out of steps is
a miss. -/
def march (t : Tracer) (origin dir : Vec3) : Option Hit :=
  t.marchFrom origin dir 0.0 t.settings.maxIterations.toNat

/-- The surface normal by central differences, or zero where the field is flat. -/
def normal (t : Tracer) (p : Vec3) : Vec3 :=
  let e := t.settings.epsilon
  let slope (o : Vec3) : Scalar := t.field (p + o) - t.field (p - o)
  let v : Vec3 := ⟨slope (Vec3.unitX * e), slope (Vec3.unitY * e), slope (Vec3.unitZ * e)⟩
  v.normalize?.getD Vec3.zero

/-- Add up how much closer the surface is than it would be in the open, sample `i` and the ones
after it, each counting half of the one before. -/
def occlusionFrom (t : Tracer) (p n : Vec3) (i : UInt32) (weight occlusion : Scalar) :
    Nat → Scalar
  | 0 => occlusion
  | samples + 1 =>
    let h := t.environment.occlusionStep * i.toFloat32
    let occlusion := occlusion + weight * (h - t.field (p + n * h))
    t.occlusionFrom p n (i + 1) (weight * 0.5) occlusion samples

/-- One on open surfaces, falling towards zero in creases. -/
def ambientOcclusion (t : Tracer) (p n : Vec3) : Scalar :=
  let occlusion := t.occlusionFrom p n 1 1.0 0.0 t.environment.occlusionSamples.toNat
  (1.0 - t.environment.occlusionStrength * occlusion).clamp 0.0 1.0

/-- March towards the light for a number of steps, keeping the smallest opening seen. -/
def shadowFrom (t : Tracer) (origin : Vec3) (shade along : Scalar) : Nat → Scalar
  | 0 => shade
  | steps + 1 =>
    let h := t.field (origin + t.light * along)
    if h < t.settings.epsilon then 0.0
    else
      let shade := Scalar.min shade (t.environment.shadowSoftness * h / along)
      let along := along + h
      if t.environment.shadowDistance < along then shade
      else t.shadowFrom origin shade along steps

/-- The share of the light that reaches a point. -/
def softShadow (t : Tracer) (p n : Vec3) : Scalar :=
  let eps := t.settings.epsilon
  let shade :=
    t.shadowFrom (p + n * (eps * 2.0)) 1.0 (eps * 10.0) t.environment.shadowIterations.toNat
  (shade + t.environment.shadowBias).clamp 0.0 1.0

/-- Mix what is seen at a hit, given the color that the reflected ray brings. -/
def mix (t : Tracer) (dir : Vec3) (hit : Hit) (n : Vec3) (reflection : Vec3) : Vec3 :=
  let env := t.environment
  let p := hit.position
  let material := env.materialAt p
  let diffuse := Scalar.max (t.light.dot n) 0.0
  let specular := (Scalar.max (dir.dot (Vec3.reflect (-t.light) dir)) 0.0).pow env.shininess
  let shadow := t.softShadow p n
  let lit := env.ambient + material.color * diffuse * shadow +
    Vec3.splat (specular * material.specular * shadow) + reflection * material.reflectivity
  let rolloff := env.rolloff hit.traveled
  lit * t.ambientOcclusion p n * rolloff + env.skyColor * (1.0 - rolloff)

/-- The color seen along a ray after `depth` reflections. -/
def shade (t : Tracer) (origin dir : Vec3) (depth : Nat) : Vec3 :=
  match t.march origin dir with
  | none => t.environment.skyColor
  | some hit =>
    let p := hit.position
    let n := t.normal p
    let reflection :=
      if _ : 0.0 < (t.environment.materialAt p).reflectivity ∧
          depth < t.settings.reflectionDepth.toNat then
        t.shade (p + n * t.settings.reflectionOffset) (Vec3.reflect dir n) (depth + 1)
      else t.environment.skyColor
    t.mix dir hit n reflection
termination_by t.settings.reflectionDepth.toNat - depth
decreasing_by omega

/-- A third of a pixel. -/
def third : Scalar := 1.0 / 3.0

/-- The samples of a pixel: offsets from its center, with weights that sum to sixteen. -/
def samples : List (Vec2 × Scalar) :=
  [(⟨-third, -third⟩, 1.0), (⟨third, -third⟩, 1.0), (⟨-third, third⟩, 1.0), (⟨third, third⟩, 1.0),
    (⟨0.0, -third⟩, 2.0), (⟨0.0, third⟩, 2.0), (⟨-third, 0.0⟩, 2.0), (⟨third, 0.0⟩, 2.0),
    (⟨0.0, 0.0⟩, 4.0)]

/-- The filtered color of the pixel in a column and a row. -/
def pixel (t : Tracer) (frame : CameraFrame) (x y : UInt32) : Vec3 :=
  let cx := x.toFloat32 + 0.5
  let cy := y.toFloat32 + 0.5
  let sum := samples.foldl (fun sum (offset, weight) =>
    sum + t.shade frame.origin (frame.ray (cx + offset.x) (cy + offset.y)) 0 * weight) Vec3.zero
  sum / (16.0 : Scalar)

end Tracer

end FieldGraph
