import FieldGraph.Proofs.Json.Codecs
import FieldGraph.Render.SettingsFile
import Mathlib.Tactic.MkIffOfInductiveProp

/-!
# Settings files survive

A request is read back from its own text, down to the bits of its scalars, as long as all scalars are
finite.  This rests on how decimals are read: if the nearest double were taken, one scalar would come
back as its neighbour (`Number.BinaryFormat.narrow_nearest_iff`).
-/

namespace FieldGraph

open Json

/-! ## Finite settings -/

/-- All components are finite. -/
@[mk_iff]
structure Vec3.Finite (v : Vec3) : Prop where
  x : v.x.isFinite = true
  y : v.y.isFinite = true
  z : v.z.isFinite = true

instance (v : Vec3) : Decidable v.Finite := decidable_of_iff' _ (Vec3.finite_iff v)

@[mk_iff]
structure Camera.Finite (c : Camera) : Prop where
  origin : c.origin.Finite
  target : c.target.Finite
  up : c.up.Finite
  fov : c.fov.isFinite = true

instance (c : Camera) : Decidable c.Finite := decidable_of_iff' _ (Camera.finite_iff c)

@[mk_iff]
structure Material.Finite (m : Material) : Prop where
  color : m.color.Finite
  specular : m.specular.isFinite = true
  reflectivity : m.reflectivity.isFinite = true

instance (m : Material) : Decidable m.Finite := decidable_of_iff' _ (Material.finite_iff m)

@[mk_iff]
structure Environment.Finite (e : Environment) : Prop where
  lightDirection : e.lightDirection.Finite
  ambient : e.ambient.Finite
  shininess : e.shininess.isFinite = true
  evenMaterial : e.evenMaterial.Finite
  oddMaterial : e.oddMaterial.Finite
  checkerPeriod : e.checkerPeriod.isFinite = true
  skyColor : e.skyColor.Finite
  fogDistance : e.fogDistance.isFinite = true
  fogFalloff : e.fogFalloff.isFinite = true
  occlusionStep : e.occlusionStep.isFinite = true
  occlusionStrength : e.occlusionStrength.isFinite = true
  shadowSoftness : e.shadowSoftness.isFinite = true
  shadowBias : e.shadowBias.isFinite = true
  shadowDistance : e.shadowDistance.isFinite = true

instance (e : Environment) : Decidable e.Finite := decidable_of_iff' _ (Environment.finite_iff e)

@[mk_iff]
structure RenderSettings.Finite (s : RenderSettings) : Prop where
  maxDistance : s.maxDistance.isFinite = true
  epsilon : s.epsilon.isFinite = true
  stepSize : s.stepSize.isFinite = true
  reflectionOffset : s.reflectionOffset.isFinite = true
  environment : s.environment.Finite

instance (s : RenderSettings) : Decidable s.Finite := decidable_of_iff' _ (RenderSettings.finite_iff s)

/-- All scalars of a request are finite. -/
@[mk_iff]
structure RenderRequest.Finite (r : RenderRequest) : Prop where
  camera : r.camera.Finite
  settings : r.settings.Finite

instance (r : RenderRequest) : Decidable r.Finite := decidable_of_iff' _ (RenderRequest.finite_iff r)

/-! ## Kept settings -/

theorem Vec3.Finite.keeps {v : Vec3} (h : v.Finite) : Vec3.codec.Keeps v := by
  have ht := keeps_triple (keeps_scalar h.x) (keeps_scalar h.y) (keeps_scalar h.z)
  exact ⟨ht.printable, by simp [Vec3.codec, ht.decode?_encode]⟩

theorem PixelFormat.keeps (f : PixelFormat) : PixelFormat.codec.Keeps f where
  printable := .string f.name
  decode?_encode := by cases f <;> rfl

theorem Camera.Finite.keeps {c : Camera} (h : c.Finite) : Camera.codec.Keeps c :=
  keeps_record (by decide) <|
    .field h.origin.keeps <| .field h.target.keeps <| .field h.up.keeps <|
    .field (keeps_scalar h.fov) <| .field (keeps_truth c.rightFromOrigin) <| .nil c

theorem Material.Finite.keeps {m : Material} (h : m.Finite) : Material.codec.Keeps m :=
  keeps_record (by decide) <|
    .field h.color.keeps <| .field (keeps_scalar h.specular) <|
    .field (keeps_scalar h.reflectivity) <| .nil m

theorem Environment.Finite.keeps {e : Environment} (h : e.Finite) : Environment.codec.Keeps e :=
  keeps_record (by decide) <|
    .field h.lightDirection.keeps <| .field h.ambient.keeps <|
    .field (keeps_scalar h.shininess) <|
    .field (keeps_pair h.evenMaterial.keeps h.oddMaterial.keeps) <|
    .field (keeps_scalar h.checkerPeriod) <| .field h.skyColor.keeps <|
    .field (keeps_scalar h.fogDistance) <| .field (keeps_scalar h.fogFalloff) <|
    .field (keeps_uint32 e.occlusionSamples) <| .field (keeps_scalar h.occlusionStep) <|
    .field (keeps_scalar h.occlusionStrength) <| .field (keeps_scalar h.shadowSoftness) <|
    .field (keeps_scalar h.shadowBias) <| .field (keeps_uint32 e.shadowIterations) <|
    .field (keeps_scalar h.shadowDistance) <| .nil e

theorem RenderSettings.Finite.keeps {s : RenderSettings} (h : s.Finite) :
    RenderSettings.codec.Keeps s :=
  keeps_record (by decide) <|
    .field (keeps_uint32 s.maxIterations) <| .field (keeps_scalar h.maxDistance) <|
    .field (keeps_scalar h.epsilon) <| .field (keeps_scalar h.stepSize) <|
    .field (keeps_uint32 s.reflectionDepth) <| .field (keeps_scalar h.reflectionOffset) <|
    .field h.environment.keeps <| .nil s

theorem RenderRequest.Finite.keeps {r : RenderRequest} (h : r.Finite) :
    RenderRequest.codec.Keeps r :=
  keeps_record (by decide) <|
    .field (keeps_uint32 r.width) <| .field (keeps_uint32 r.height) <|
    .field (keeps_uint64 r.workers) <| .field r.format.keeps <| .field h.camera.keeps <|
    .field h.settings.keeps <| .nil r

/-- A request of finite scalars is read back from its own text. -/
theorem RenderRequest.read?_write_of_finite (r : RenderRequest) (h : r.Finite) :
    RenderRequest.codec.read? (RenderRequest.codec.write r) = some r :=
  h.keeps.read?_write

/-- The least and the greatest finite scalar, negative zero, and the one scalar whose decimal is nearly
halfway to the next. -/
def RenderRequest.extreme : RenderRequest where
  width := 0xffffffff
  height := 0
  workers := 0xffffffffffffffff
  format := .bgra8
  camera := { fov := .ofBits 0x15ae43fd }
  settings :=
    { maxDistance := .ofBits 0x7f7fffff, epsilon := .ofBits 1, stepSize := .ofBits 0x80000000 }

theorem RenderRequest.read?_write_extreme : RenderRequest.extreme.Finite ∧
    RenderRequest.codec.read? (RenderRequest.codec.write .extreme) = some .extreme :=
  have hfinite : RenderRequest.extreme.Finite := by decide +kernel
  ⟨hfinite, RenderRequest.extreme.read?_write_of_finite hfinite⟩

end FieldGraph
