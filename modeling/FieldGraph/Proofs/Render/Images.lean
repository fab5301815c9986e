import FieldGraph.Proofs.Render.Completion
import FieldGraph.Render.Image

/-!
# Rendered images

The bytes of finished work are those of its stripes.  If the bytes of the image can be counted in a
word, the stripes cover the image: the bytes are then those of all pixels by number, and the same for
every number of workers and every order of their steps.
-/

namespace FieldGraph

/-! ## Bytes -/

theorem Quad.length_flatMap_toList (qs : List Quad) :
    (qs.flatMap Quad.toList).length = qs.length * 4 := by
  induction qs with
  | nil => rfl
  | cons q qs ih =>
      rw [List.flatMap_cons, List.length_append, ih, List.length_cons, Nat.succ_mul, Nat.add_comm]
      rfl

/-- Every pixel takes four bytes. -/
theorem Quad.getElem?_flatMap_toList (qs : List Quad) (p : Nat) {i : Nat} (hi : i < 4) :
    (qs.flatMap Quad.toList)[p * 4 + i]? = qs[p]?.bind fun q ↦ q.toList[i]? := by
  induction qs generalizing p with
  | nil => rfl
  | cons q qs ih =>
      have hlen : q.toList.length = 4 := rfl
      rw [List.flatMap_cons]
      cases p with
      | zero =>
          rw [Nat.zero_mul, Nat.zero_add, List.getElem?_append_left (hlen ▸ hi)]
          rfl
      | succ p =>
          rw [List.getElem?_append_right (by omega), hlen, List.getElem?_cons_succ, ← ih p]
          congr 1
          omega

theorem PixelBuffer.quad?_of_data {b : PixelBuffer} {qs : List Quad}
    (h : b.data.toList = qs.flatMap Quad.toList) (p : Nat) : b.quad? (p * 4) = qs[p]? := by
  have hbyte {i : Nat} (hi : i < 4) : b.data[p * 4 + i]? = qs[p]?.bind fun q ↦ q.toList[i]? := by
    rw [← Array.getElem?_toList, h]
    exact Quad.getElem?_flatMap_toList qs p hi
  have h₀ := hbyte (i := 0) (by omega)
  rw [Nat.add_zero] at h₀
  rw [quad?, h₀, hbyte (i := 1) (by omega), hbyte (i := 2) (by omega), hbyte (i := 3) (by omega)]
  cases qs[p]? <;> rfl

/-- The bytes of `n` pixels are `4 * n` bytes, each of them once. -/
theorem flatMap_range'_four (n : Nat) :
    (List.range n).flatMap (fun p ↦ List.range' (p * 4) 4) = List.range (n * 4) := by
  induction n with
  | zero => rfl
  | succ n ih =>
      rw [List.range_succ, List.flatMap_append, ih, List.flatMap_singleton, Nat.succ_mul,
        List.range_eq_range', List.range_eq_range', ← List.range'_append_1, Nat.zero_add]

namespace WorkState

theorem toList_foldl_quads (quads : List Quad) (data : Array UInt8) :
    (quads.foldl (fun data q ↦
      (((data.push q.first).push q.second).push q.third).push q.fourth) data).toList =
      data.toList ++ quads.flatMap Quad.toList := by
  induction quads generalizing data with
  | nil => simp
  | cons q quads ih =>
      rw [List.foldl_cons, ih, List.flatMap_cons]
      simp [Quad.toList]

end WorkState

/-- The pixels of a stripe, and zeros where nothing is painted. -/
theorem Worker.toList_write (w : Worker) (data : Array UInt8) :
    (w.write data).toList = data.toList ++ (w.quads.toList.flatMap Quad.toList ++
      List.replicate (w.stripe.bytes - w.quads.size * 4) 0) := by
  rw [write, Array.toList_append, ← Array.foldl_toList, WorkState.toList_foldl_quads,
    Array.toList_replicate, List.append_assoc]

theorem WorkState.toList_bytes (s : WorkState) :
    s.bytes.toList = s.workers.flatMap fun w ↦ w.quads.toList.flatMap Quad.toList ++
      List.replicate (w.stripe.bytes - w.quads.size * 4) 0 := by
  have hfold (workers : List Worker) (data : Array UInt8) :
      (workers.foldl (fun data w ↦ w.write data) data).toList = data.toList ++
        workers.flatMap fun w ↦ w.quads.toList.flatMap Quad.toList ++
          List.replicate (w.stripe.bytes - w.quads.size * 4) 0 := by
    induction workers generalizing data with
    | nil => simp
    | cons w workers ih =>
        rw [List.foldl_cons, ih, Worker.toList_write, List.append_assoc, List.flatMap_cons]
  exact hfold s.workers #[]

namespace PaintJob

variable (j : PaintJob) (stripe : Stripe)

/-- The bytes of a finished stripe: those of its pixels, and a rest that is too short for one. -/
def stripeBytes : List UInt8 :=
  ((List.range stripe.pixels).map (j.stripeCell stripe)).flatMap Quad.toList ++
    List.replicate (stripe.bytes % 4) 0

theorem length_stripeBytes : (j.stripeBytes stripe).length = stripe.bytes := by
  rw [stripeBytes, List.length_append, Quad.length_flatMap_toList, List.length_map,
    List.length_range, List.length_replicate, Stripe.pixels, Nat.div_add_mod']

/-- There is no rest in a stripe of whole pixels. -/
theorem stripeBytes_of_dvd (h : 4 ∣ stripe.bytes) : j.stripeBytes stripe =
    ((List.range stripe.pixels).map (j.stripeCell stripe)).flatMap Quad.toList := by
  rw [stripeBytes, Nat.mod_eq_zero_of_dvd h, List.replicate_zero, List.append_nil]

/-- Its pixels have the numbers that follow the first one. -/
theorem map_stripeCell (hw : 0 < j.width) :
    (List.range stripe.pixels).map (j.stripeCell stripe) = (stripe.cells j.width).map j.cell := by
  rw [Stripe.cells, List.range'_eq_map_range, List.map_map]
  exact List.map_congr_left fun k _ ↦ j.stripeCell_eq hw stripe k

/-- The bytes of all pixels, by number. -/
def quads : List Quad := (List.range (j.height * j.width)).map j.cell

end PaintJob

/-- The stripes are finished only if every pixel is painted. -/
theorem WorkState.Ok.toList_bytes {j : PaintJob} {stripes : List Stripe} {s : WorkState}
    (h : s.Ok j stripes) (hf : s.isFinished = true) :
    s.bytes.toList = stripes.flatMap j.stripeBytes := by
  obtain ⟨hs, hok⟩ := h
  rw [isFinished_iff] at hf
  rw [← hs, List.flatMap_map, WorkState.toList_bytes]
  refine List.flatMap_congr fun w hw ↦ ?_
  have hrest : w.stripe.bytes - w.stripe.pixels * 4 = w.stripe.bytes % 4 := by
    rw [Stripe.pixels]
    omega
  rw [(hok w hw).painted, (hok w hw).finished (hf w hw), hrest]
  rfl

/-! ## Images -/

namespace RenderRequest

variable {field : Field} {r : RenderRequest} {cores : Nat} {listener : Progress → Bool}
  {s : WorkState}

theorem workerCount_pos (r : RenderRequest) (cores : Nat) : 0 < r.workerCount cores := by
  unfold workerCount
  split
  · omega
  next h => exact Nat.pos_of_ne_zero fun h₀ ↦ h (UInt64.toNat_inj.1 h₀)

theorem flatMap_cells_stripes (hfit : SizeFits r.width r.height) (cores : Nat) :
    (r.stripes cores).flatMap (Stripe.cells · r.width.toNat) =
      List.range (r.height.toNat * r.width.toNat) := Stripe.flatMap_cells_share hfit _

/-- Without columns there is nothing to share out. -/
theorem stripes_of_width_eq_zero (hw : r.width.toNat = 0) : r.stripes cores = [] :=
  Stripe.share_of_imageBytes_eq_zero (by simp [imageBytes_eq_mod, hw]) _

theorem nodup_cells_stripes (hfit : SizeFits r.width r.height) (cores : Nat) :
    ((r.stripes cores).flatMap (Stripe.cells · r.width.toNat)).Nodup :=
  flatMap_cells_stripes hfit cores ▸ List.nodup_range

/-- The image that finished work amounts to, of whatever size. -/
def picture (r : RenderRequest) (field : Field) (cores : Nat) : PixelBuffer where
  width := r.width
  height := r.height
  format := r.format
  data := ((r.stripes cores).flatMap (r.paintJob field fun _ ↦ false).stripeBytes).toArray
  size_data := by
    simp only [List.size_toArray, List.length_flatMap, PaintJob.length_stripeBytes]
    exact Stripe.sum_bytes_share ..

/-- It shows the field pixel by pixel if the bytes can be counted. -/
theorem toList_data_picture (hfit : SizeFits r.width r.height) (field : Field) (cores : Nat) :
    (r.picture field cores).data.toList =
      (r.paintJob field fun _ ↦ false).quads.flatMap Quad.toList := by
  let j := r.paintJob field fun _ ↦ false
  have hcells : (r.stripes cores).flatMap (Stripe.cells · j.width) =
      List.range (j.height * j.width) := flatMap_cells_stripes hfit cores
  change (r.stripes cores).flatMap j.stripeBytes = j.quads.flatMap Quad.toList
  rw [PaintJob.quads, ← hcells, List.flatMap_map, List.flatMap_assoc]
  rcases Nat.eq_zero_or_pos j.width with hw | hw
  · rw [stripes_of_width_eq_zero hw]
    rfl
  · refine List.flatMap_congr fun stripe hs ↦ ?_
    rw [j.stripeBytes_of_dvd stripe (Stripe.dvd_bytes_of_mem_share hfit hw hs),
      j.map_stripeCell stripe hw, List.flatMap_map]

/-- The number of workers has no part in it then. -/
theorem picture_workers (hfit : SizeFits r.width r.height) (field : Field) (workers : UInt64)
    (cores cores' : Nat) :
    ({ r with workers } : RenderRequest).picture field cores' = r.picture field cores := by
  have hdata : (({ r with workers } : RenderRequest).picture field cores').data =
      (r.picture field cores).data :=
    Array.toList_inj.1 ((toList_data_picture (r := { r with workers }) hfit field cores').trans
      (toList_data_picture hfit field cores).symm)
  exact PixelBuffer.ext rfl rfl rfl hdata

theorem quad?_picture (hfit : SizeFits r.width r.height) (field : Field) (cores : Nat)
    {x y : UInt32} (hx : x < r.width) (hy : y < r.height) :
    (r.picture field cores).quad? ((y.toNat * r.width.toNat + x.toNat) * 4) =
      some (r.format.encode
        (Rgba.ofColor ((Tracer.ofSettings field r.settings).pixel r.frame x y))) := by
  let j := r.paintJob field fun _ ↦ false
  have hcolumn : x.toNat < j.width := UInt32.lt_iff_toNat_lt.1 hx
  have hrow : y.toNat < j.height := UInt32.lt_iff_toNat_lt.1 hy
  have hxy : y.toNat * j.width + x.toNat < j.height * j.width :=
    Stripe.lt_mul_iff.2 ⟨x.toNat, hcolumn, y.toNat, hrow, rfl⟩
  have hpixel : j.cell (y.toNat * j.width + x.toNat) = j.paint x.toNat y.toNat := by
    rw [PaintJob.cell, Stripe.mul_add_mod hcolumn, Stripe.mul_add_div hcolumn]
  rw [PixelBuffer.quad?_of_data (toList_data_picture hfit field cores), PaintJob.quads,
    List.getElem?_map]
  change Option.map j.cell (List.range (j.height * j.width))[y.toNat * j.width + x.toNat]? = _
  rw [List.getElem?_range hxy, Option.map_some, hpixel]
  change some ((Tracer.ofSettings field r.settings).quad r.frame r.format x.toNat y.toNat) = _
  rw [Tracer.quad, UInt32.ofNat_toNat, UInt32.ofNat_toNat]

theorem image?_of_finished (h : s.Ok (r.paintJob field listener) (r.stripes cores))
    (hf : s.isFinished = true) : r.image? s = some (r.picture field cores) := by
  have hdata : s.bytes = (r.picture field cores).data := Array.toList_inj.1 (h.toList_bytes hf)
  have hsize : s.bytes.size = imageBytes r.width r.height :=
    hdata ▸ (r.picture field cores).size_data
  rw [image?, if_pos hf, PixelBuffer.ofBytes, dif_pos hsize]
  exact congrArg some (PixelBuffer.ext rfl rfl rfl hdata)

theorem isSome_image?_iff (h : s.Ok (r.paintJob field listener) (r.stripes cores)) :
    (r.image? s).isSome = true ↔ s.isFinished = true := by
  constructor
  · intro himage
    by_contra hf
    rw [image?, if_neg hf] at himage
    cases himage
  · intro hf
    rw [image?_of_finished h hf]
    rfl

/-- Whatever has happened, there is no image or all of it. -/
theorem image?_eq_none_or (h : s.Ok (r.paintJob field listener) (r.stripes cores)) :
    r.image? s = none ∨ r.image? s = some (r.picture field cores) := by
  by_cases hf : s.isFinished = true
  · exact .inr (image?_of_finished h hf)
  · exact .inl (if_neg hf)

theorem eq_picture_of_image? (h : s.Ok (r.paintJob field listener) (r.stripes cores))
    {b : PixelBuffer} (hb : r.image? s = some b) : b = r.picture field cores :=
  Option.some.inj (hb.symm.trans
    ((image?_eq_none_or h).resolve_left (hb ▸ Option.some_ne_none b)))

theorem ok_after (r : RenderRequest) (field : Field) (cores : Nat) (listener : Progress → Bool)
    (cancelled : Bool) (events : List WorkEvent) :
    ((WorkState.start (r.stripes cores) cancelled).after (r.paintJob field listener) events).Ok
      (r.paintJob field listener) (r.stripes cores) := (WorkState.ok_start ..).after events

/-- Working through all stripes is a history that ends. -/
theorem exists_events_render (field : Field) (r : RenderRequest) (cores : Nat)
    (listener : Progress → Bool) (cancelled : Bool) :
    ∃ events, .cancel ∉ events ∧
      ((WorkState.start (r.stripes cores) cancelled).after (r.paintJob field listener) events).Ended ∧
      (render field r cores listener cancelled).image = r.image?
        ((WorkState.start (r.stripes cores) cancelled).after (r.paintJob field listener) events) := by
  obtain ⟨⟨events, hc, hev⟩, hend⟩ := WorkState.exists_events_finish (r.paintJob field listener)
    (WorkState.start (r.stripes cores) cancelled)
  refine ⟨events, hc, hev ▸ hend, ?_⟩
  rw [hev]
  rfl

/-- A history in which nobody cancels paints the whole image. -/
theorem image?_of_quiet (hl : ∀ p, listener p = false) {events : List WorkEvent}
    (hc : .cancel ∉ events)
    (he : ((WorkState.start (r.stripes cores) false).after (r.paintJob field listener) events).Ended) :
    let s := (WorkState.start (r.stripes cores) false).after (r.paintJob field listener) events
    s.isFinished = true ∧ r.image? s = some (r.picture field cores) := by
  have hf := (WorkState.isFinished_iff_polls (.inl he)).2 (WorkState.polls_of_quiet hl rfl hc)
  exact ⟨hf, image?_of_finished (r.ok_after field cores listener false events) hf⟩

/-- A pixel is painted only where there are columns to divide by. -/
theorem width_pos_of_writes {cancelled : Bool} {events : List WorkEvent}
    (h : (WorkState.start (r.stripes cores) cancelled).writes (r.paintJob field listener) events ≠ []) :
    0 < r.width := by
  obtain ⟨p, hp⟩ := List.exists_mem_of_ne_nil _ h
  refine UInt32.lt_iff_toNat_lt.2 (Nat.pos_of_ne_zero fun hw ↦ ?_)
  have hcell := WorkState.mem_cells_of_mem_writes hp
  rw [stripes_of_width_eq_zero hw] at hcell
  cases hcell

/-- The bytes of the image, each of which is written once. -/
theorem bytes_written_perm (hfit : SizeFits r.width r.height) {cancelled : Bool}
    {events : List WorkEvent}
    (hf : ((WorkState.start (r.stripes cores) cancelled).after (r.paintJob field listener)
      events).isFinished = true) :
    (((WorkState.start (r.stripes cores) cancelled).writes (r.paintJob field listener)
      events).flatMap fun p ↦ List.range' (p * 4) 4).Perm
        (List.range (r.width.toNat * r.height.toNat * 4)) := by
  have hwrites := WorkState.writes_perm_of_finished hf
  have hcells : (r.stripes cores).flatMap (Stripe.cells · (r.paintJob field listener).width) =
      List.range (r.height.toNat * r.width.toNat) := flatMap_cells_stripes hfit cores
  rw [hcells] at hwrites
  rw [Nat.mul_comm r.width.toNat, ← flatMap_range'_four]
  exact hwrites.flatMap_right _

theorem renderImage?_eq (field : Field) (r : RenderRequest) (cores : Nat) :
    renderImage? field r cores = some (r.picture field cores) := by
  obtain ⟨events, hc, he, himage⟩ := exists_events_render field r cores (fun _ ↦ false) false
  exact himage.trans (image?_of_quiet (fun _ ↦ rfl) hc he).2

/-- When the work is over, there is an image if and only if every pixel was polled without the flag. -/
theorem isSome_image?_iff_pixels (hfit : SizeFits r.width r.height) {cancelled : Bool}
    {events : List WorkEvent}
    (ho : ((WorkState.start (r.stripes cores) cancelled).after (r.paintJob field listener)
      events).Over) :
    (r.image? ((WorkState.start (r.stripes cores) cancelled).after (r.paintJob field listener)
        events)).isSome = true ↔
      ∀ x < r.width.toNat, ∀ y < r.height.toNat, ⟨y * r.width.toNat + x, false⟩ ∈
        (WorkState.start (r.stripes cores) cancelled).polls (r.paintJob field listener) events := by
  have hcells : (r.stripes cores).flatMap (Stripe.cells · (r.paintJob field listener).width) =
      List.range (r.height.toNat * r.width.toNat) := flatMap_cells_stripes hfit cores
  rw [isSome_image?_iff (r.ok_after field cores listener cancelled events),
    WorkState.isFinished_iff_cells_polls ho (nodup_cells_stripes hfit cores), hcells]
  constructor
  · intro h x hx y hy
    exact h _ (List.mem_range.2 (Stripe.lt_mul_iff.2 ⟨x, hx, y, hy, rfl⟩))
  · intro h p hp
    obtain ⟨x, hx, y, hy, rfl⟩ := Stripe.lt_mul_iff.1 (List.mem_range.1 hp)
    exact h x hx y hy

/-- If the flag is set from the start, no image that has a pixel is shown. -/
theorem image?_of_cancelled (hfit : SizeFits r.width r.height) (hw : 0 < r.width)
    (hh : 0 < r.height) (events : List WorkEvent) :
    r.image? ((WorkState.start (r.stripes cores) true).after (r.paintJob field listener) events) =
      none := by
  have hok := r.ok_after field cores listener true events
  rcases image?_eq_none_or hok with hnone | hsome
  · exact hnone
  have hf := (isSome_image?_iff hok).1 (by rw [hsome]; rfl)
  have hfirst : 0 ∈ (r.stripes cores).flatMap (Stripe.cells · (r.paintJob field listener).width) := by
    change 0 ∈ (r.stripes cores).flatMap (Stripe.cells · r.width.toNat)
    rw [flatMap_cells_stripes hfit, List.mem_range]
    exact Nat.mul_pos (UInt32.lt_iff_toNat_lt.1 hh) (UInt32.lt_iff_toNat_lt.1 hw)
  have hpoll : ⟨0, false⟩ ∈ (WorkState.start (r.stripes cores) true).polls
      (r.paintJob field listener) events := by
    rw [WorkState.mem_polls_iff, hok.polled_of_finished hf]
    exact List.mem_map_of_mem hfirst
  cases WorkState.polls_of_cancelled rfl _ hpoll

/-! ## Sizes that wrap -/

/-- A request for an image the bytes of which are counted as none. -/
def oversized : RenderRequest := { width := 2147483648, height := 2147483648, workers := 1 }

theorem imageBytes_oversized : imageBytes oversized.width oversized.height = 0 := by decide

/-- There is no stripe, so that nobody has anything to do, -/
theorem stripes_oversized (cores : Nat) : oversized.stripes cores = [] :=
  Stripe.share_of_imageBytes_eq_zero imageBytes_oversized _

/-- and the work is finished before it begins. -/
theorem image?_oversized (field : Field) (cores : Nat) (listener : Progress → Bool)
    (cancelled : Bool) (events : List WorkEvent) :
    oversized.image? ((WorkState.start (oversized.stripes cores) cancelled).after
      (oversized.paintJob field listener) events) = some (oversized.picture field cores) := by
  have hok := oversized.ok_after field cores listener cancelled events
  refine image?_of_finished hok (WorkState.isFinished_iff.2 fun w hw ↦ ?_)
  have hmem : w.stripe ∈ oversized.stripes cores := hok.stripes ▸ List.mem_map_of_mem hw
  rw [stripes_oversized] at hmem
  cases hmem

theorem data_oversized (field : Field) (cores : Nat) : (oversized.picture field cores).data = #[] :=
  Array.size_eq_zero_iff.1 ((oversized.picture field cores).size_data.trans imageBytes_oversized)

theorem quad?_oversized (field : Field) (cores start : Nat) :
    (oversized.picture field cores).quad? start = none := by
  rw [PixelBuffer.quad?, data_oversized]
  rfl

end RenderRequest

/-! ## Striped rendering -/

/-- Striped rendering is rendering pixel by pixel, if the bytes of the image can be counted in a word.
There is one image of a field that all numbers of workers and all orders of their steps lead to, if
nobody cancels: it holds the color of every pixel at the pixel's place.  Every such history can go on
to its end, by which it has written every byte once; and pixels are painted only where there are
columns to divide by. -/
theorem render_eq_pixels (field : Field) (r : RenderRequest) (hfit : SizeFits r.width r.height) :
    ∃ b : PixelBuffer, b.width = r.width ∧ b.height = r.height ∧ b.format = r.format ∧
      b.data.size = r.width.toNat * r.height.toNat * 4 ∧
      (∀ x y : UInt32, x < r.width → y < r.height →
        b.quad? ((y.toNat * r.width.toNat + x.toNat) * 4) =
          some (r.format.encode
            (Rgba.ofColor ((Tracer.ofSettings field r.settings).pixel r.frame x y)))) ∧
      ∀ (workers : UInt64) (cores : Nat) (listener : Progress → Bool), (∀ p, listener p = false) →
        let q : RenderRequest := { r with workers }
        let j := q.paintJob field listener
        let start := WorkState.start (q.stripes cores) false
        0 < q.workerCount cores ∧ 0 < Stripe.rowsEach r.height.toNat (q.workerCount cores) ∧
          (render field q cores listener false).image = some b ∧
          ∀ events, .cancel ∉ events →
            (∃ more, .cancel ∉ events ++ more ∧ (start.after j (events ++ more)).Ended) ∧
            (start.writes j events ≠ [] → 0 < r.width) ∧
            ((start.after j events).Ended → q.image? (start.after j events) = some b ∧
              ((start.writes j events).flatMap fun p ↦ List.range' (p * 4) 4).Perm
                (List.range (r.width.toNat * r.height.toNat * 4))) := by
  refine ⟨r.picture field 1, rfl, rfl, rfl,
    (r.picture field 1).size_data.trans hfit.imageBytes_eq,
    fun x y hx hy ↦ RenderRequest.quad?_picture hfit field 1 hx hy,
    fun workers cores listener hl ↦ ?_⟩
  intro q j start
  have hpicture : q.picture field cores = r.picture field 1 :=
    RenderRequest.picture_workers hfit field workers 1 cores
  refine ⟨q.workerCount_pos cores, Stripe.rowsEach_pos .., ?_, fun events hc ↦
    ⟨WorkState.exists_more_ended j start hc, RenderRequest.width_pos_of_writes (r := q),
      fun he ↦ ?_⟩⟩
  · obtain ⟨events, hc, he, himage⟩ :=
      RenderRequest.exists_events_render field q cores listener false
    rw [himage, (RenderRequest.image?_of_quiet hl hc he).2, hpicture]
  · obtain ⟨hf, himage⟩ := RenderRequest.image?_of_quiet hl hc he
    exact ⟨hpicture ▸ himage, RenderRequest.bytes_written_perm (r := q) hfit hf⟩

/-- More workers than rows: a history that ends leads to the image. -/
theorem render_eq_pixels_moreWorkers :
    let r : RenderRequest := { width := 1, height := 2, workers := 5 }
    let j := r.paintJob (fun _ ↦ 1) fun _ ↦ false
    ∃ b : PixelBuffer,
      b.quad? 4 = some (r.format.encode (Rgba.ofColor
        ((Tracer.ofSettings (fun _ ↦ 1) r.settings).pixel r.frame 0 1))) ∧
      renderImage? (fun _ ↦ 1) r 1 = some b ∧
      ∃ events, .cancel ∉ events ∧
        r.image? ((WorkState.start (r.stripes 1) false).after j events) = some b := by
  intro r j
  obtain ⟨b, -, -, -, -, hpixel, hrender⟩ :=
    render_eq_pixels (fun _ ↦ 1) { width := 1, height := 2 } (by decide)
  obtain ⟨-, -, himage, hhistory⟩ := hrender 5 1 (fun _ ↦ false) fun _ ↦ rfl
  obtain ⟨⟨more, hc, hend⟩, -⟩ := hhistory [] List.not_mem_nil
  obtain ⟨-, -, hended⟩ := hhistory ([] ++ more) hc
  exact ⟨b, hpixel 0 1 (by decide) (by decide), himage, more, hc, (hended hend).1⟩

/-- The bytes of an image that is too large: the product wraps to zero, and the image is returned
without the first of its pixels. -/
theorem render_without_pixels :
    let r := RenderRequest.oversized
    0 < r.width ∧ 0 < r.height ∧ ∃ b : PixelBuffer,
      (render (fun _ ↦ 1) r 1 (fun _ ↦ false) false).image = some b ∧
        b.data.size ≠ r.width.toNat * r.height.toNat * 4 ∧ b.quad? 0 = none := by
  intro r
  refine ⟨by decide, by decide, r.picture (fun _ ↦ 1) 1, RenderRequest.renderImage?_eq .., ?_,
    RenderRequest.quad?_oversized ..⟩
  rw [RenderRequest.data_oversized]
  decide

/-! ## Cancelled renders -/

/-- A cancelled render never shows a part of an image.  Whoever sets the flag, at whatever moment of
whatever history, there is no image or the one that would have been there without it; and if the work
is over, there is one if and only if no poll saw the flag.  If the bytes of the image can be counted
in a word, that is if and only if every pixel was polled before the flag was set. -/
theorem image_of_cancelled (field : Field) (r : RenderRequest) (cores : Nat)
    (listener : Progress → Bool) (cancelled : Bool) (events : List WorkEvent) :
    let j := r.paintJob field listener
    let start := WorkState.start (r.stripes cores) cancelled
    let s := start.after j events
    let polls := start.polls j events
    (renderImage? field r cores).isSome ∧
      (r.image? s = none ∨ r.image? s = renderImage? field r cores) ∧
      (s.Over → ((r.image? s).isSome ↔ ∀ q ∈ polls, q.cancelled = false)) ∧
      (SizeFits r.width r.height →
        (polls.map Poll.pixel).Nodup ∧
        (s.Over → ((r.image? s).isSome ↔ ∀ x < r.width.toNat, ∀ y < r.height.toNat,
          ⟨y * r.width.toNat + x, false⟩ ∈ polls)) ∧
        (cancelled = true → 0 < r.width → 0 < r.height → r.image? s = none)) ∧
      ∃ sequential, .cancel ∉ sequential ∧ (start.after j sequential).Over ∧
        (render field r cores listener cancelled).image = r.image? (start.after j sequential) := by
  intro j start s polls
  have hok := r.ok_after field cores listener cancelled events
  refine ⟨?_, ?_, fun ho ↦ ?_, fun hfit ↦ ?_, ?_⟩
  · rw [RenderRequest.renderImage?_eq]
    rfl
  · rw [RenderRequest.renderImage?_eq]
    exact RenderRequest.image?_eq_none_or hok
  · rw [RenderRequest.isSome_image?_iff hok]
    exact WorkState.isFinished_iff_polls ho
  · refine ⟨WorkState.nodup_polls (RenderRequest.nodup_cells_stripes hfit cores),
      RenderRequest.isSome_image?_iff_pixels hfit, fun hset hw hh ↦ ?_⟩
    subst hset
    exact RenderRequest.image?_of_cancelled hfit hw hh events
  · obtain ⟨sequential, hc, he, himage⟩ :=
      RenderRequest.exists_events_render field r cores listener cancelled
    exact ⟨sequential, hc, .inl he, himage⟩

/-- Two stripes of one pixel, of which the first one is painted when somebody cancels. -/
theorem image_of_cancelled_betweenStripes :
    let r : RenderRequest := { width := 1, height := 2, workers := 2 }
    let j := r.paintJob (fun _ ↦ 1) fun _ ↦ false
    let start := WorkState.start (r.stripes 1) false
    let events := [.step 0, .cancel, .step 1]
    (start.after j events).Over ∧ start.polls j events = [⟨0, false⟩, ⟨1, true⟩] ∧
      r.image? (start.after j events) = none := by
  intro r j start events
  have ho : (start.after j events).Over := .inr (by decide +kernel)
  have hpolls : start.polls j events = [⟨0, false⟩, ⟨1, true⟩] := by decide +kernel
  refine ⟨ho, hpolls, ?_⟩
  obtain ⟨-, -, -, hfits, -⟩ := image_of_cancelled (fun _ ↦ 1) r 1 (fun _ ↦ false) false events
  obtain ⟨-, hover, -⟩ := hfits (by decide)
  rw [← Option.not_isSome_iff_eq_none, hover ho]
  intro hpolled
  have hsecond : ⟨1, false⟩ ∈ start.polls j events := hpolled 0 (by decide) 1 (by decide)
  simp [hpolls] at hsecond

/-- An image that is too large has no pixel to poll: although the flag is set from the start, the
render returns an image. -/
theorem image_although_cancelled :
    let r := RenderRequest.oversized
    0 < r.width ∧ 0 < r.height ∧
      (render (fun _ ↦ 1) r 1 (fun _ ↦ false) true).image.isSome = true ∧
      ∀ events, r.image? ((WorkState.start (r.stripes 1) true).after
          (r.paintJob (fun _ ↦ 1) fun _ ↦ false) events) ≠ none ∧
        (WorkState.start (r.stripes 1) true).polls (r.paintJob (fun _ ↦ 1) fun _ ↦ false) events =
          [] := by
  intro r
  refine ⟨by decide, by decide, ?_, fun events ↦ ⟨?_, List.eq_nil_iff_forall_not_mem.2 ?_⟩⟩
  · obtain ⟨events, -, -, himage⟩ :=
      RenderRequest.exists_events_render (fun _ ↦ 1) r 1 (fun _ ↦ false) true
    rw [himage, RenderRequest.image?_oversized]
    rfl
  · rw [RenderRequest.image?_oversized]
    exact Option.some_ne_none _
  · intro q hq
    have hcell := WorkState.mem_cells_of_mem_polls hq
    rw [RenderRequest.stripes_oversized] at hcell
    cases hcell

end FieldGraph
