import FieldGraph.Json.Record
import FieldGraph.Render.Settings

/-!
# Settings files

The written form of cameras, materials, environments, settings and requests.
-/

namespace FieldGraph

open Json (Codec RecordField)

namespace Vec3

/-- An array of the three components. -/
def codec : Codec Vec3 where
  encode v := (Json.triple Json.scalar).encode (v.x, v.y, v.z)
  decode? j := ((Json.triple Json.scalar).decode? j).map fun (x, y, z) => ⟨x, y, z⟩

end Vec3

namespace PixelFormat

/-- The format of a name. -/
def ofText? (s : JsonText) : Option PixelFormat := s.bind ofName?

/-- The name, which may also be the only member of an object, then with nothing in it. -/
def codec : Codec PixelFormat where
  encode f := Json.ofString f.name
  decode?
    | .string s => ofText? s
    | .object [(s, .null)] => ofText? s
    | _ => none

end PixelFormat

namespace Camera

def codec : Codec Camera := Json.record {} [
  .of "origin" Vec3.codec (·.origin) fun v c => { c with origin := v },
  .of "target" Vec3.codec (·.target) fun v c => { c with target := v },
  .of "up" Vec3.codec (·.up) fun v c => { c with up := v },
  .of "fov" Json.scalar (·.fov) fun v c => { c with fov := v },
  .of "legacy_basis" Json.truth (·.rightFromOrigin) fun v c => { c with rightFromOrigin := v }]

end Camera

namespace Material

def codec : Codec Material := Json.record {} [
  .of "color" Vec3.codec (·.color) fun v m => { m with color := v },
  .of "specular" Json.scalar (·.specular) fun v m => { m with specular := v },
  .of "reflectivity" Json.scalar (·.reflectivity) fun v m => { m with reflectivity := v }]

end Material

namespace Environment

def codec : Codec Environment := Json.record {} [
  .of "light_direction" Vec3.codec (·.lightDirection) fun v e => { e with lightDirection := v },
  .of "ambient" Vec3.codec (·.ambient) fun v e => { e with ambient := v },
  .of "shininess" Json.scalar (·.shininess) fun v e => { e with shininess := v },
  .of "materials" (Json.pair Material.codec) (fun e => (e.evenMaterial, e.oddMaterial))
    fun v e => { e with evenMaterial := v.1, oddMaterial := v.2 },
  .of "checker_period" Json.scalar (·.checkerPeriod) fun v e => { e with checkerPeriod := v },
  .of "sky_color" Vec3.codec (·.skyColor) fun v e => { e with skyColor := v },
  .of "fog_distance" Json.scalar (·.fogDistance) fun v e => { e with fogDistance := v },
  .of "fog_falloff" Json.scalar (·.fogFalloff) fun v e => { e with fogFalloff := v },
  .of "ao_samples" Json.uint32 (·.occlusionSamples) fun v e => { e with occlusionSamples := v },
  .of "ao_step" Json.scalar (·.occlusionStep) fun v e => { e with occlusionStep := v },
  .of "ao_strength" Json.scalar (·.occlusionStrength) fun v e => { e with occlusionStrength := v },
  .of "shadow_softness" Json.scalar (·.shadowSoftness) fun v e => { e with shadowSoftness := v },
  .of "shadow_bias" Json.scalar (·.shadowBias) fun v e => { e with shadowBias := v },
  .of "shadow_iterations" Json.uint32 (·.shadowIterations)
    fun v e => { e with shadowIterations := v },
  .of "shadow_distance" Json.scalar (·.shadowDistance) fun v e => { e with shadowDistance := v }]

end Environment

namespace RenderSettings

def codec : Codec RenderSettings := Json.record {} [
  .of "max_iterations" Json.uint32 (·.maxIterations) fun v s => { s with maxIterations := v },
  .of "max_distance" Json.scalar (·.maxDistance) fun v s => { s with maxDistance := v },
  .of "epsilon" Json.scalar (·.epsilon) fun v s => { s with epsilon := v },
  .of "step_size" Json.scalar (·.stepSize) fun v s => { s with stepSize := v },
  .of "reflection_depth" Json.uint32 (·.reflectionDepth) fun v s => { s with reflectionDepth := v },
  .of "reflection_offset" Json.scalar (·.reflectionOffset)
    fun v s => { s with reflectionOffset := v },
  .of "environment" Environment.codec (·.environment) fun v s => { s with environment := v }]

end RenderSettings

namespace RenderRequest

def codec : Codec RenderRequest := Json.record {} [
  .of "width" Json.uint32 (·.width) fun v r => { r with width := v },
  .of "height" Json.uint32 (·.height) fun v r => { r with height := v },
  .of "workers" Json.uint64 (·.workers) fun v r => { r with workers := v },
  .of "format" PixelFormat.codec (·.format) fun v r => { r with format := v },
  .of "camera" Camera.codec (·.camera) fun v r => { r with camera := v },
  .of "settings" RenderSettings.codec (·.settings) fun v r => { r with settings := v }]

end RenderRequest

end FieldGraph
