import FieldGraph.Proofs.Render.Images

/-!
# Byte orders

A buffer is a list of pixels, whatever the order of their bytes.  What is read from it, one pixel or
all of them, is read from that list, and the order in which a request wants its bytes has no part in
the pixels that it paints.
-/

namespace FieldGraph

/-- The bytes of a pixel as they are read back. -/
def Rgba.toList (p : Rgba) : List UInt8 := [p.r, p.g, p.b, p.a]

/-! ## Four bytes at a time -/

namespace Quad

/-- Cut bytes into pixels; a rest of less than four is dropped. -/
def ofBytes : List UInt8 → List Quad
  | p :: q :: r :: s :: rest => ⟨p, q, r, s⟩ :: ofBytes rest
  | _ => []

theorem length_ofBytes (bytes : List UInt8) : (ofBytes bytes).length = bytes.length / 4 := by
  fun_induction ofBytes bytes with
  | case1 p q r s rest ih =>
      rw [List.length_cons, ih]
      simp only [List.length_cons]
      omega
  | case2 bytes hshort =>
      have hlt : bytes.length < 4 := by
        match bytes, hshort with
        | [], _ | [_], _ | [_, _], _ | [_, _, _], _ => simp
        | _ :: _ :: _ :: _ :: _, hshort => exact absurd rfl (hshort _ _ _ _ _)
      rw [List.length_nil, Nat.div_eq_of_lt hlt]

@[simp] theorem ofBytes_flatMap_toList (qs : List Quad) : ofBytes (qs.flatMap toList) = qs := by
  induction qs with
  | nil => rfl
  | cons q qs ih => exact congrArg (q :: ·) ih

theorem mem_of_mem_ofBytes {q : Quad} {bytes : List UInt8} (hq : q ∈ ofBytes bytes) {x : UInt8}
    (hx : x ∈ q.toList) : x ∈ bytes := by
  fun_induction ofBytes bytes with
  | case1 p q' r s rest ih =>
      rcases List.mem_cons.1 hq with rfl | hq
      · exact List.mem_append_left rest hx
      · exact List.mem_append_right [p, q', r, s] (ih hq)
  | case2 => cases hq

/-- Nothing is dropped if the bytes are those of whole pixels. -/
theorem flatMap_toList_ofBytes {n : Nat} {bytes : List UInt8} (h : bytes.length = n * 4) :
    (ofBytes bytes).flatMap toList = bytes := by
  fun_induction ofBytes bytes generalizing n with
  | case1 p q r s rest ih =>
      simp only [List.length_cons] at h
      have hrest : rest.length = (n - 1) * 4 := by omega
      exact congrArg (p :: q :: r :: s :: ·) (ih hrest)
  | case2 bytes hshort =>
      match bytes, hshort with
      | [], _ => rfl
      | [_], _ | [_, _], _ | [_, _, _], _ =>
          simp only [List.length_cons, List.length_nil] at h
          omega
      | _ :: _ :: _ :: _ :: _, hshort => exact absurd rfl (hshort _ _ _ _ _)

end Quad

/-- The bytes of the pixel with a number. -/
theorem Rgba.take_drop_flatMap (ps : List Rgba) {p : Nat} {px : Rgba} (h : ps[p]? = some px) :
    ((ps.flatMap Rgba.toList).drop (p * 4)).take 4 = px.toList := by
  induction ps generalizing p with
  | nil => cases h
  | cons q ps ih =>
      cases p with
      | zero =>
          obtain rfl := Option.some.inj h
          rfl
      | succ p =>
          rw [Nat.succ_mul]
          exact ih h

/-! ## Pixels of a buffer -/

namespace PixelBuffer

variable {b b' : PixelBuffer}

/-- The pixels of a buffer by number. -/
def pixels (b : PixelBuffer) : List Rgba := (Quad.ofBytes b.data.toList).map b.format.decode

theorem length_data (b : PixelBuffer) : b.data.toList.length = imageBytes b.width b.height / 4 * 4 :=
  b.size_data.trans (Nat.div_mul_cancel (four_dvd_imageBytes ..)).symm

theorem length_pixels (b : PixelBuffer) : b.pixels.length = imageBytes b.width b.height / 4 := by
  rw [pixels, List.length_map, Quad.length_ofBytes, length_data, Nat.mul_div_cancel _ (by decide)]

theorem place_eq_mod (b : PixelBuffer) (x y : Nat) :
    b.place x y = (y * b.width.toNat + x) * 4 % UInt64.size := by
  rw [place, UInt64.toNat_mul, UInt64.toNat_ofNat']
  exact Nat.mod_mul_mod ..

theorem four_dvd_place (b : PixelBuffer) (x y : Nat) : 4 ∣ b.place x y := by
  rw [place_eq_mod]
  exact (Nat.dvd_mod_iff (by decide)).2 (Nat.dvd_mul_left ..)

/-- A pixel is looked for at the number that its place makes. -/
theorem pixel?_eq (b : PixelBuffer) (x y : Nat) :
    b.pixel? x y = if x < b.width.toNat ∧ y < b.height.toNat then b.pixels[b.place x y / 4]?
      else none := by
  have hplace : b.place x y = b.place x y / 4 * 4 := (Nat.div_mul_cancel (four_dvd_place b x y)).symm
  rw [pixel?, hplace, quad?_of_data (Quad.flatMap_toList_ofBytes b.length_data).symm, pixels,
    List.getElem?_map, Nat.mul_div_cancel _ (by decide)]

theorem decodeBytes_eq (format : PixelFormat) (bytes : List UInt8) :
    decodeBytes format bytes = (Quad.ofBytes bytes).flatMap fun q ↦ (format.decode q).toList := by
  fun_induction Quad.ofBytes bytes with
  | case1 p q r s rest ih =>
      rw [List.flatMap_cons, ← ih]
      rfl
  | case2 bytes hshort =>
      unfold decodeBytes
      split
      next => exact absurd rfl (hshort _ _ _ _ _)
      next => rfl

/-- Red, green, blue and alpha need no reordering. -/
theorem rgbaBytes_eq (b : PixelBuffer) : b.rgbaBytes = b.pixels.flatMap Rgba.toList := by
  rw [pixels, List.flatMap_map]
  cases hf : b.format with
  | rgba8 =>
      simp only [rgbaBytes, hf]
      exact (Quad.flatMap_toList_ofBytes b.length_data).symm
  | bgra8 =>
      simp only [rgbaBytes, hf]
      exact decodeBytes_eq ..

theorem length_rgbaBytes (b : PixelBuffer) :
    b.rgbaBytes.length = imageBytes b.width b.height := by
  have hbytes (ps : List Rgba) : (ps.flatMap Rgba.toList).length = ps.length * 4 := by
    simp [List.length_flatMap, Rgba.toList]
  rw [rgbaBytes_eq, hbytes, length_pixels, Nat.div_mul_cancel (four_dvd_imageBytes ..)]

/-! ## Buffers of a size that fits -/

section Fits

variable (hfit : SizeFits b.width b.height)

include hfit

theorem place_of_fits {x y : Nat} (hx : x < b.width.toNat) (hy : y < b.height.toNat) :
    b.place x y = (y * b.width.toNat + x) * 4 := by
  have hlt : y * b.width.toNat + x < b.height.toNat * b.width.toNat :=
    Stripe.lt_mul_iff.2 ⟨x, hx, y, hy, rfl⟩
  have hall : b.width.toNat * b.height.toNat * 4 < UInt64.size := hfit
  rw [Nat.mul_comm b.width.toNat] at hall
  rw [place_eq_mod, Nat.mod_eq_of_lt (by omega)]

/-- There is a pixel wherever there is a column and a row. -/
theorem exists_pixel {x y : Nat} (hx : x < b.width.toNat) (hy : y < b.height.toNat) :
    ∃ px, b.pixel? x y = some px ∧ b.pixels[y * b.width.toNat + x]? = some px := by
  have hlt : y * b.width.toNat + x < b.pixels.length := by
    rw [length_pixels, hfit.imageBytes_eq, Nat.mul_div_cancel _ (by decide),
      Nat.mul_comm b.width.toNat]
    exact Stripe.lt_mul_iff.2 ⟨x, hx, y, hy, rfl⟩
  have hget := List.getElem?_eq_getElem hlt
  refine ⟨_, ?_, hget⟩
  rw [pixel?_eq, if_pos ⟨hx, hy⟩, place_of_fits hfit hx hy, Nat.mul_div_cancel _ (by decide), hget]

theorem pixel?_eq_none_iff (x y : Nat) :
    b.pixel? x y = none ↔ ¬ (x < b.width.toNat ∧ y < b.height.toNat) := by
  constructor
  · intro hnone ⟨hx, hy⟩
    obtain ⟨px, hsome, -⟩ := exists_pixel hfit hx hy
    cases hnone.symm.trans hsome
  · exact fun houtside ↦ if_neg houtside

/-- A pixel stands at its place among the bytes of all pixels. -/
theorem take_drop_of_pixel? {x y : Nat} {px : Rgba} (h : b.pixel? x y = some px) :
    (b.rgbaBytes.drop ((y * b.width.toNat + x) * 4)).take 4 = px.toList := by
  have hinside : x < b.width.toNat ∧ y < b.height.toNat := by
    by_contra houtside
    rw [(pixel?_eq_none_iff hfit x y).2 houtside] at h
    cases h
  obtain ⟨q, hq, hget⟩ := exists_pixel hfit hinside.1 hinside.2
  obtain rfl := Option.some.inj (hq.symm.trans h)
  rw [rgbaBytes_eq]
  exact Rgba.take_drop_flatMap _ hget

/-- The bytes of all pixels are there. -/
theorem toRgba_of_fits : b.toRgba = .ok b.rgbaBytes :=
  if_pos (Nat.le_of_eq (b.length_rgbaBytes.trans hfit.imageBytes_eq).symm)

end Fits

/-! ## Buffers that show the same -/

/-- Two buffers that show the same picture. -/
structure Alike (b b' : PixelBuffer) : Prop where
  width : b.width = b'.width
  height : b.height = b'.height
  pixel? : ∀ x y, b.pixel? x y = b'.pixel? x y
  toRgba : b.toRgba = b'.toRgba

theorem Alike.of_pixels (hw : b.width = b'.width) (hh : b.height = b'.height)
    (hp : b.pixels = b'.pixels) : b.Alike b' where
  width := hw
  height := hh
  pixel? x y := by rw [pixel?_eq, pixel?_eq, place, place, hw, hh, hp]
  toRgba := by
    have hbytes : b.rgbaBytes = b'.rgbaBytes := by rw [rgbaBytes_eq, rgbaBytes_eq, hp]
    rw [PixelBuffer.toRgba, PixelBuffer.toRgba, b.size_data, b'.size_data, hbytes, hw, hh]

end PixelBuffer

/-! ## Pictures -/

/-- Zeros show the same in either order. -/
theorem PixelFormat.decode_of_zeros {q : Quad} (h : ∀ x ∈ q.toList, x = 0) (f f' : PixelFormat) :
    f.decode q = f'.decode q := by
  obtain ⟨first, second, third, fourth⟩ := q
  obtain rfl : first = 0 := h first (by simp [Quad.toList])
  obtain rfl : third = 0 := h third (by simp [Quad.toList])
  cases f <;> cases f' <;> rfl

namespace RenderRequest

variable (r : RenderRequest) (field : Field)

/-- Pixel `k` of a stripe, which the order of the bytes has no part in. -/
def stripePixel (stripe : Stripe) (k : Nat) : Rgba :=
  Rgba.ofColor ((Tracer.ofSettings field r.settings).pixel r.frame
    (UInt32.ofNat (Stripe.column r.width.toNat k)) (UInt32.ofNat (stripe.row r.width.toNat k)))

/-- Stripes of whole pixels are read back pixel by pixel. -/
theorem pixels_picture_of_dvd {cores : Nat} (h : ∀ stripe ∈ r.stripes cores, 4 ∣ stripe.bytes) :
    (r.picture field cores).pixels = (r.stripes cores).flatMap fun stripe ↦
      (List.range stripe.pixels).map (r.stripePixel field stripe) := by
  let j := r.paintJob field fun _ ↦ false
  have hdata : (r.picture field cores).data.toList = ((r.stripes cores).flatMap fun stripe ↦
      (List.range stripe.pixels).map (j.stripeCell stripe)).flatMap Quad.toList := by
    rw [List.flatMap_assoc]
    exact List.flatMap_congr fun stripe hs ↦ j.stripeBytes_of_dvd stripe (h stripe hs)
  rw [PixelBuffer.pixels, hdata, Quad.ofBytes_flatMap_toList, List.map_flatMap]
  refine List.flatMap_congr fun stripe _ ↦ ?_
  rw [List.map_map]
  exact List.map_congr_left fun k _ ↦ PixelFormat.decode_encode ..

/-- Stripes without a pixel leave nothing but zeros. -/
theorem toList_data_of_pixels_eq_zero {cores : Nat}
    (h : ∀ stripe ∈ r.stripes cores, stripe.pixels = 0) :
    (r.picture field cores).data.toList =
      (r.stripes cores).flatMap fun stripe ↦ List.replicate (stripe.bytes % 4) 0 := by
  refine List.flatMap_congr fun stripe hs ↦ ?_
  rw [PaintJob.stripeBytes, h stripe hs]
  rfl

theorem pixels_picture (f f' : PixelFormat) (cores : Nat) :
    ({ r with format := f }.picture field cores).pixels =
      ({ r with format := f' }.picture field cores).pixels := by
  rcases Stripe.dvd_bytes_or_pixels_eq_zero r.width r.height (r.workerCount cores) with h | h
  · exact (pixels_picture_of_dvd { r with format := f } field h).trans
      (pixels_picture_of_dvd { r with format := f' } field h).symm
  · rw [PixelBuffer.pixels, PixelBuffer.pixels,
      toList_data_of_pixels_eq_zero { r with format := f } field h,
      toList_data_of_pixels_eq_zero { r with format := f' } field h]
    refine List.map_congr_left fun q hq ↦ PixelFormat.decode_of_zeros (fun x hx ↦ ?_) ..
    obtain ⟨stripe, -, hzero⟩ := List.mem_flatMap.1 (Quad.mem_of_mem_ofBytes hq hx)
    exact List.eq_of_mem_replicate hzero

theorem alike_picture (f f' : PixelFormat) (cores : Nat) :
    ({ r with format := f }.picture field cores).Alike
      ({ r with format := f' }.picture field cores) :=
  .of_pixels rfl rfl (r.pixels_picture field f f' cores)

end RenderRequest

/-- The byte order never changes the picture.  In whatever order a request wants its bytes, and by
whatever histories its images come about, they show the same; so they do for different numbers of
cores, if the bytes can be counted in a word.  A pixel of any buffer of such a size is there exactly
within the size of the image, and is the one that the bytes of all pixels hold at its place. -/
theorem byteOrder_invisible (field : Field) (r : RenderRequest) :
    (∀ (f f' : PixelFormat) (cores cores' : Nat),
      (cores = cores' ∨ SizeFits r.width r.height) →
      let q : RenderRequest := { r with format := f }
      let q' : RenderRequest := { r with format := f' }
      (∃ b b', renderImage? field q cores = some b ∧ b.format = f ∧
        renderImage? field q' cores' = some b' ∧ b'.format = f' ∧ b.Alike b') ∧
      ∀ (listener listener' : Progress → Bool) (cancelled cancelled' : Bool)
        (events events' : List WorkEvent) (b b' : PixelBuffer),
        q.image? ((WorkState.start (q.stripes cores) cancelled).after
          (q.paintJob field listener) events) = some b →
        q'.image? ((WorkState.start (q'.stripes cores') cancelled').after
          (q'.paintJob field listener') events') = some b' →
        b.Alike b') ∧
    ∀ (width height : UInt32) (format : PixelFormat) (data : Array UInt8) (b : PixelBuffer),
      SizeFits width height → PixelBuffer.ofBytes width height format data = .ok b →
        ∃ rgba, b.toRgba = .ok rgba ∧ rgba.length = width.toNat * height.toNat * 4 ∧
          ∀ x y, (b.pixel? x y = none ↔ ¬ (x < width.toNat ∧ y < height.toNat)) ∧
            ∀ px, b.pixel? x y = some px →
              (rgba.drop ((y * width.toNat + x) * 4)).take 4 = px.toList := by
  constructor
  · intro f f' cores cores' hsame q q'
    have hcores : q'.picture field cores = q'.picture field cores' := by
      rcases hsame with rfl | hfit
      · rfl
      · exact RenderRequest.picture_workers (r := q') hfit field q'.workers cores' cores
    have halike : (q.picture field cores).Alike (q'.picture field cores') :=
      hcores ▸ r.alike_picture field f f' cores
    refine ⟨⟨_, _, RenderRequest.renderImage?_eq .., rfl, RenderRequest.renderImage?_eq .., rfl,
      halike⟩, fun listener listener' cancelled cancelled' events events' b b' hb hb' ↦ ?_⟩
    obtain rfl := RenderRequest.eq_picture_of_image?
      (q.ok_after field cores listener cancelled events) hb
    obtain rfl := RenderRequest.eq_picture_of_image?
      (q'.ok_after field cores' listener' cancelled' events') hb'
    exact halike
  · intro width height format data b hfit hb
    unfold PixelBuffer.ofBytes at hb
    split at hb
    case isFalse => cases hb
    case isTrue hsize =>
      obtain rfl := Except.ok.inj hb
      exact ⟨_, PixelBuffer.toRgba_of_fits hfit,
        (PixelBuffer.length_rgbaBytes _).trans hfit.imageBytes_eq, fun x y ↦
          ⟨PixelBuffer.pixel?_eq_none_iff hfit x y, fun _ ↦ PixelBuffer.take_drop_of_pixel? hfit⟩⟩

/-- Two pixels in a row, stored with blue first: the second one stands at byte 4, and there is none
to the right of it. -/
theorem byteOrder_invisible_twoPixels :
    ∃ b, PixelBuffer.ofBytes 2 1 .bgra8 #[10, 20, 30, 255, 1, 2, 3, 255] = .ok b ∧
      b.pixel? 1 0 = some ⟨3, 2, 1, 255⟩ ∧
      (∃ rgba, b.toRgba = .ok rgba ∧ (rgba.drop 4).take 4 = [3, 2, 1, 255]) ∧
      b.pixel? 2 0 = none := by
  let b : PixelBuffer := ⟨2, 1, .bgra8, #[10, 20, 30, 255, 1, 2, 3, 255], rfl⟩
  have hb : PixelBuffer.ofBytes 2 1 .bgra8 #[10, 20, 30, 255, 1, 2, 3, 255] = .ok b := rfl
  have hpixel : b.pixel? 1 0 = some ⟨3, 2, 1, 255⟩ := rfl
  obtain ⟨rgba, hrgba, -, hplaces⟩ :=
    (byteOrder_invisible (fun _ ↦ 1) {}).2 2 1 .bgra8 _ b (by decide) hb
  exact ⟨b, hb, hpixel, ⟨rgba, hrgba, (hplaces 1 0).2 _ hpixel⟩, (hplaces 2 0).1.2 (by decide)⟩

/-- The product of a size that is too large wraps: a buffer without bytes is accepted, the first pixel
is missing although it is within the size, and the bytes of all pixels are not there. -/
theorem ofBytes_without_pixels :
    ∃ b, PixelBuffer.ofBytes 2147483648 2147483648 .rgba8 #[] = .ok b ∧ 0 < b.width.toNat ∧
      0 < b.height.toNat ∧ b.pixel? 0 0 = none ∧
      b.toRgba = .error ⟨2147483648, 2147483648, 0⟩ :=
  ⟨⟨2147483648, 2147483648, .rgba8, #[], by decide⟩, by decide, by decide, by decide, by decide, rfl⟩

end FieldGraph
