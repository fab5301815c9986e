import FieldGraph.Proofs.Render.Bounces
import FieldGraph.Proofs.Render.ByteOrder

/-!
# Nothing but sky

A field that is never close to the surface lets every ray pass, whatever its values are and however
rays step through it.  Its image has one color, which is nearly the color of the sky: what is stored
is the weighted sum of the samples, and sums of scalars are rounded.
-/

namespace FieldGraph

/-! ## Images of one color -/

namespace PixelBuffer

/-- An image of one color. -/
def plain (width height : UInt32) (format : PixelFormat) (color : Rgba) : PixelBuffer where
  width := width
  height := height
  format := format
  data := ((List.replicate (imageBytes width height / 4) (format.encode color)).flatMap
    Quad.toList).toArray
  size_data := by
    rw [List.size_toArray, Quad.length_flatMap_toList, List.length_replicate,
      Nat.div_mul_cancel (four_dvd_imageBytes width height)]

variable {width height : UInt32} {format : PixelFormat} {color : Rgba}

theorem data_plain (hfit : SizeFits width height) :
    (plain width height format color).data.toList =
      (List.replicate (height.toNat * width.toNat) (format.encode color)).flatMap Quad.toList := by
  have hpixels : imageBytes width height / 4 = height.toNat * width.toNat := by
    rw [hfit.imageBytes_eq, Nat.mul_div_cancel _ (by decide), Nat.mul_comm]
  exact hpixels ▸ List.toList_toArray

theorem pixel?_plain (hfit : SizeFits width height) {x y : Nat} (hx : x < width.toNat)
    (hy : y < height.toNat) : (plain width height format color).pixel? x y = some color := by
  have hlt : y * width.toNat + x < height.toNat * width.toNat :=
    Stripe.lt_mul_iff.2 ⟨x, hx, y, hy, rfl⟩
  have hplace : (plain width height format color).place x y = (y * width.toNat + x) * 4 :=
    place_of_fits hfit hx hy
  have hquad : (plain width height format color).quad? ((y * width.toNat + x) * 4) =
      some (format.encode color) := by
    rw [quad?_of_data (data_plain hfit), List.getElem?_replicate_of_lt hlt]
  calc
    _ = (some (format.encode color)).map format.decode :=
      (if_pos ⟨hx, hy⟩).trans (congrArg (Option.map format.decode) (hplace ▸ hquad))
    _ = some color := by rw [Option.map_some, PixelFormat.decode_encode]

end PixelBuffer

/-- If all pixels get the same color, it is the color of the image. -/
theorem RenderRequest.picture_eq_plain {r : RenderRequest} (hfit : SizeFits r.width r.height)
    {field : Field} {color : Vec3}
    (h : ∀ x y, (Tracer.ofSettings field r.settings).pixel r.frame x y = color) (cores : Nat) :
    r.picture field cores = .plain r.width r.height r.format (Rgba.ofColor color) := by
  let j := r.paintJob field fun _ ↦ false
  have hcell (p : Nat) : j.cell p = r.format.encode (Rgba.ofColor color) :=
    congrArg (r.format.encode <| Rgba.ofColor ·) (h _ _)
  have hquads : j.quads =
      List.replicate (r.height.toNat * r.width.toNat) (r.format.encode (Rgba.ofColor color)) := by
    rw [PaintJob.quads, List.map_congr_left fun p _ ↦ hcell p, List.map_const', List.length_range]
    rfl
  refine PixelBuffer.ext rfl rfl rfl (Array.toList_inj.1 ?_)
  rw [toList_data_picture hfit, hquads]
  exact (PixelBuffer.data_plain hfit).symm

/-! ## Fields that are never close -/

namespace Tracer

/-- The color of a pixel all samples of which have the same color. -/
def filtered (color : Vec3) : Vec3 :=
  samples.foldl (fun sum (_, weight) => sum + color * weight) Vec3.zero / (16.0 : Scalar)

variable {t : Tracer}

theorem march_eq_none (h : ∀ p, ¬ t.field p < t.settings.epsilon) (origin dir : Vec3) :
    t.march origin dir = none := by
  rw [← hit?_course]
  cases hc : (t.course origin dir).hit? with
  | none => rfl
  | some hit =>
      obtain ⟨n, -, -, -, -, close⟩ := (follows_course t origin dir).exists_of_hit hc
      exact absurd close (h _)

theorem shade_eq_sky (h : ∀ p, ¬ t.field p < t.settings.epsilon) (origin dir : Vec3) (depth : Nat) :
    t.shade origin dir depth = t.environment.skyColor :=
  shade_of_none (r := ⟨origin, dir⟩) (march_eq_none h origin dir) depth

theorem pixel_eq_filtered {color : Vec3} (h : ∀ origin dir, t.shade origin dir 0 = color)
    (frame : CameraFrame) (x y : UInt32) : t.pixel frame x y = filtered color := by
  simp only [pixel, h]
  rfl

end Tracer

/-- The picture of a field that is never close. -/
theorem RenderRequest.picture_eq_sky {r : RenderRequest} (hfit : SizeFits r.width r.height)
    {field : Field} (h : ∀ p, ¬ field p < r.settings.epsilon) (cores : Nat) :
    r.picture field cores = .plain r.width r.height r.format
      (Rgba.ofColor (Tracer.filtered r.settings.environment.skyColor)) := by
  let t := Tracer.ofSettings field r.settings
  refine picture_eq_plain hfit (fun x y ↦ ?_) cores
  exact Tracer.pixel_eq_filtered (fun origin dir ↦ Tracer.shade_eq_sky (t := t) h origin dir 0) ..

/-- A field that is never close is all sky.  No ray hits it, and every shade is the color of the sky.
If the bytes of the image can be counted in a word, there is one image that renders end with: all its
pixels are the sky as the filter rounds it.  Two such fields have the same image whatever their
cameras and the limits of their steps are, if the images have the same size, format and sky. -/
theorem render_sky (field : Field) (r : RenderRequest) (h : ∀ p, ¬ field p < r.settings.epsilon) :
    let t := Tracer.ofSettings field r.settings
    let sky := r.settings.environment.skyColor
    let color := Rgba.ofColor (Tracer.filtered sky)
    let image := PixelBuffer.plain r.width r.height r.format color
    (∀ origin dir, t.march origin dir = none) ∧
      (∀ origin dir depth, t.shade origin dir depth = sky) ∧
      (∀ x y, t.pixel r.frame x y = Tracer.filtered sky) ∧
      (SizeFits r.width r.height →
        image.data.toList =
          (List.replicate (r.height.toNat * r.width.toNat) (r.format.encode color)).flatMap
            Quad.toList ∧
        (∀ x < r.width.toNat, ∀ y < r.height.toNat, image.pixel? x y = some color) ∧
        (∀ cores, renderImage? field r cores = some image) ∧
        (∀ cores listener cancelled events,
          let start := WorkState.start (r.stripes cores) cancelled
          let s := start.after (r.paintJob field listener) events
          (r.image? s = none ∨ r.image? s = some image) ∧
            ((∀ p, listener p = false) → cancelled = false → .cancel ∉ events → s.Ended →
              r.image? s = some image)) ∧
        ∀ (other : Field) (q : RenderRequest), (∀ p, ¬ other p < q.settings.epsilon) →
          q.width = r.width → q.height = r.height → q.format = r.format →
          q.settings.environment.skyColor = sky →
          ∀ cores, renderImage? other q cores = some image) := by
  intro t sky color image
  have hshade : ∀ origin dir depth, t.shade origin dir depth = sky := Tracer.shade_eq_sky h
  refine ⟨Tracer.march_eq_none h, hshade, fun x y ↦
    Tracer.pixel_eq_filtered (fun origin dir ↦ hshade origin dir 0) .., fun hfit ↦ ?_⟩
  have himage (cores : Nat) : r.picture field cores = image :=
    RenderRequest.picture_eq_sky hfit h cores
  refine ⟨PixelBuffer.data_plain hfit, fun x hx y hy ↦ PixelBuffer.pixel?_plain hfit hx hy,
    fun cores ↦ ?_, fun cores listener cancelled events ↦ ⟨?_, fun hl hset hc he ↦ ?_⟩,
    fun other q hother hw hh hf hsky cores ↦ ?_⟩
  · rw [RenderRequest.renderImage?_eq, himage]
  · have hok := r.ok_after field cores listener cancelled events
    exact himage cores ▸ RenderRequest.image?_eq_none_or hok
  · subst hset
    exact himage cores ▸ (RenderRequest.image?_of_quiet hl hc he).2
  · have hother' : SizeFits q.width q.height := hw ▸ hh ▸ hfit
    rw [RenderRequest.renderImage?_eq, RenderRequest.picture_eq_sky hother' hother, hw, hh, hf, hsky]

/-- A field that is nowhere a number, with steps that go backwards. -/
theorem render_sky_nan :
    let r : RenderRequest := { width := 2, height := 2, settings := { stepSize := -1.0 } }
    (∀ p, ¬ (fun _ ↦ Scalar.nan : Field) p < r.settings.epsilon) ∧
      renderImage? (fun _ ↦ Scalar.nan) r 1 = some (.plain 2 2 .rgba8
        (Rgba.ofColor (Tracer.filtered r.settings.environment.skyColor))) := by
  intro r
  have hnan : ¬ Scalar.nan < r.settings.epsilon := by decide +kernel
  have h : ∀ p, ¬ (fun _ ↦ Scalar.nan : Field) p < r.settings.epsilon := fun _ ↦ hnan
  obtain ⟨-, -, -, hfits⟩ := render_sky (fun _ ↦ Scalar.nan) r h
  obtain ⟨-, -, himage, -⟩ := hfits (by decide)
  exact ⟨h, himage 1⟩

/-- An image that is too large has no sky either: it is returned without its first pixel. -/
theorem render_without_sky :
    let r := RenderRequest.oversized
    (∀ p, ¬ (fun _ ↦ 1 : Field) p < r.settings.epsilon) ∧ 0 < r.width ∧ 0 < r.height ∧
      ∃ image, renderImage? (fun _ ↦ 1) r 1 = some image ∧ image.pixel? 0 0 = none := by
  intro r
  have hfar : ¬ (1 : Scalar) < r.settings.epsilon := by decide +kernel
  refine ⟨fun _ ↦ hfar, by decide, by decide, r.picture (fun _ ↦ 1) 1,
    RenderRequest.renderImage?_eq .., ?_⟩
  rw [PixelBuffer.pixel?, RenderRequest.quad?_oversized]
  exact ite_self _

end FieldGraph
