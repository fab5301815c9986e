import FieldGraph.Render.Pixels
import FieldGraph.Render.Stripe
import Mathlib.Algebra.Order.Ring.Nat

/-!
# Stripes cover the image

The pixels of an image are numbered row by row.  A stripe is a range of these numbers, and if the
bytes of the image can be counted in a word, the stripes that share it out are the numbers of all its
pixels, in order: a stripe that would begin below the last row is empty.  Otherwise the stripes have
only the bytes that are left of the product.
-/

namespace FieldGraph

namespace Stripe

/-! ## Numbers of pixels -/

theorem mul_add_mod {x width : Nat} (hx : x < width) (y : Nat) : (y * width + x) % width = x := by
  rw [Nat.mul_add_mod_self_right, Nat.mod_eq_of_lt hx]

theorem mul_add_div {x width : Nat} (hx : x < width) (y : Nat) : (y * width + x) / width = y := by
  rw [Nat.add_comm, Nat.add_mul_div_right x y (Nat.zero_lt_of_lt hx), Nat.div_eq_of_lt hx,
    Nat.zero_add]

/-- A number is that of a pixel if it has a column and a row. -/
theorem lt_mul_iff {p height width : Nat} :
    p < height * width ↔ ∃ x < width, ∃ y < height, y * width + x = p := by
  constructor
  · intro hp
    have hw : 0 < width := Nat.pos_of_ne_zero fun h ↦ by simp [h] at hp
    refine ⟨p % width, Nat.mod_lt p hw, p / width, Nat.div_lt_of_lt_mul ?_, Nat.div_add_mod' p width⟩
    rwa [Nat.mul_comm]
  · rintro ⟨x, hx, y, hy, rfl⟩
    calc y * width + x < y * width + width := Nat.add_lt_add_left hx _
      _ = (y + 1) * width := (Nat.succ_mul y width).symm
      _ ≤ height * width := Nat.mul_le_mul_right width hy

/-! ## Pixels of a stripe -/

variable (s : Stripe) (width : Nat)

/-- The number of the first pixel. -/
def offset : Nat := s.firstRow * width

/-- The numbers of the pixels. -/
def cells : List Nat := List.range' (s.offset width) s.pixels

/-- The column of a pixel follows from its number, -/
theorem column_eq (k : Nat) : column width k = (s.offset width + k) % width :=
  (Nat.mul_add_mod_self_right s.firstRow width k).symm

/-- and so does its row. -/
theorem row_eq {width : Nat} (hw : 0 < width) (k : Nat) :
    s.row width k = (s.offset width + k) / width := by
  rw [row, offset, Nat.add_comm _ k, Nat.add_mul_div_right k s.firstRow hw, Nat.add_comm]

/-! ## Cutting -/

theorem rowsEach_pos (height workers : Nat) : 0 < rowsEach height workers :=
  Nat.lt_of_lt_of_le Nat.zero_lt_one (Nat.le_max_right ..)

theorem bytesEach_pos (width : UInt32) (rows : Nat) : 0 < bytesEach width rows :=
  Nat.lt_of_lt_of_le Nat.zero_lt_one (Nat.le_max_right ..)

theorem ceilDiv_le (a b : Nat) : ceilDiv a b ≤ a := by
  rw [ceilDiv]
  rcases Nat.eq_zero_or_pos b with rfl | hb
  · simp
  cases a with
  | zero => exact Nat.le_of_eq (Nat.div_eq_of_lt (by omega))
  | succ a =>
      refine Nat.div_le_of_le_mul ?_
      have h := Nat.le_mul_of_pos_left a hb
      rw [Nat.mul_succ]
      omega

theorem le_ceilDiv_mul {b : Nat} (hb : 0 < b) (a : Nat) : a ≤ ceilDiv a b * b := by
  have h := Nat.lt_mul_div_succ (a + b - 1) hb
  rw [Nat.mul_succ, Nat.mul_comm] at h
  rw [ceilDiv]
  omega

/-- One stripe more: it takes `each` of what is left of `all`. -/
theorem min_succ_mul (n each all : Nat) :
    min ((n + 1) * each) all = min (n * each) all + min each (all - n * each) := by
  rw [Nat.succ_mul]
  omega

/-- No byte is left out, and none is cut off twice. -/
theorem sum_bytes_cut (bytes rows : Nat) {each : Nat} (he : 0 < each) :
    ((cut bytes each rows).map Stripe.bytes).sum = bytes := by
  have hfirst (n : Nat) :
      (((List.range n).map fun i ↦ (⟨i * rows, min each (bytes - i * each)⟩ : Stripe)).map
        Stripe.bytes).sum = min (n * each) bytes := by
    induction n with
    | zero => simp
    | succ n ih =>
        rw [List.range_succ, List.map_append, List.map_append, List.sum_append, ih, min_succ_mul]
        rfl
  rw [cut, hfirst, Nat.min_eq_right (le_ceilDiv_mul he bytes)]

/-- Stripes of whole rows have the pixels of all rows. -/
theorem flatMap_cells_cut (height : Nat) {rows : Nat} (hr : 0 < rows) {width : Nat}
    (hw : 0 < width) :
    (cut (height * width * 4) (rows * width * 4) rows).flatMap (cells · width) =
      List.range (height * width) := by
  have hfirst (n : Nat) :
      ((List.range n).map fun i ↦ (⟨i * rows, min (rows * width * 4)
        (height * width * 4 - i * (rows * width * 4))⟩ : Stripe)).flatMap (cells · width) =
        List.range (min (n * (rows * width)) (height * width)) := by
    induction n with
    | zero => simp
    | succ n ih =>
        have hpixels : min (rows * width * 4) (height * width * 4 - n * (rows * width * 4)) / 4 =
            min (rows * width) (height * width - n * (rows * width)) := by
          rw [← Nat.mul_assoc]
          omega
        rw [List.range_succ, List.map_append, List.flatMap_append, ih, min_succ_mul,
          List.range_eq_range', List.range_eq_range', ← List.range'_append_1, Nat.zero_add,
          List.map_singleton, List.flatMap_singleton, cells, offset, pixels, hpixels]
        congr 1
        rcases Nat.le_total (n * (rows * width)) (height * width) with h | h
        · rw [Nat.min_eq_left h, Nat.mul_assoc]
        · rw [Nat.sub_eq_zero_of_le h, Nat.min_zero]
          rfl
  have hall : height * width ≤
      ceilDiv (height * width * 4) (rows * width * 4) * (rows * width) := by
    have heach : 0 < rows * width * 4 := Nat.mul_pos (Nat.mul_pos hr hw) (by decide)
    have h := le_ceilDiv_mul heach (height * width * 4)
    rw [← Nat.mul_assoc] at h
    omega
  rw [cut, hfirst, Nat.min_eq_right hall]

theorem dvd_bytes_of_mem_cut {s : Stripe} {d bytes each rows : Nat} (hb : d ∣ bytes)
    (he : d ∣ each) (hs : s ∈ cut bytes each rows) : d ∣ s.bytes := by
  obtain ⟨i, -, rfl⟩ := List.mem_map.1 hs
  have hrest : d ∣ bytes - i * each := Nat.dvd_sub hb (Nat.dvd_trans he (Nat.dvd_mul_left ..))
  rcases Nat.le_total each (bytes - i * each) with h | h
  · exact (Nat.min_eq_left h).symm ▸ he
  · exact (Nat.min_eq_right h).symm ▸ hrest

theorem bytes_le_of_mem_cut {s : Stripe} {bytes each rows : Nat} (hs : s ∈ cut bytes each rows) :
    s.bytes ≤ each := by
  obtain ⟨i, -, rfl⟩ := List.mem_map.1 hs
  exact Nat.min_le_left ..

/-! ## Sharing out -/

/-- The bytes of some rows, before there is at least one. -/
theorem toNat_rowBytes (width : UInt32) (rows : Nat) :
    (UInt64.ofNat rows * (width.toUInt64 * 4)).toNat = rows * width.toNat * 4 % UInt64.size := by
  rw [Nat.mul_assoc]
  simp [Nat.mul_mod, UInt64.size]

theorem share_eq (width height : UInt32) (workers : Nat) :
    share width height workers = cut (imageBytes width height)
      (bytesEach width (rowsEach height.toNat workers)) (rowsEach height.toNat workers) := by
  have hbytes : width.toUInt64 * 4 * height.toUInt64 = width.toUInt64 * height.toUInt64 * 4 := by
    rw [UInt64.mul_assoc, UInt64.mul_assoc, UInt64.mul_comm 4]
  rw [share, hbytes, imageBytes]

variable {w h : UInt32}

/-- Whatever the number of workers is, every byte belongs to one stripe. -/
theorem sum_bytes_share (w h : UInt32) (workers : Nat) :
    ((share w h workers).map Stripe.bytes).sum = imageBytes w h := by
  rw [share_eq, sum_bytes_cut _ _ (bytesEach_pos ..)]

/-- Where there are no bytes there are no stripes. -/
theorem share_of_imageBytes_eq_zero (hb : imageBytes w h = 0) (workers : Nat) :
    share w h workers = [] := by
  have hnone := Nat.eq_zero_of_le_zero (ceilDiv_le 0 (bytesEach w (rowsEach h.toNat workers)))
  rw [share_eq, hb, cut, hnone]
  rfl

/-- Where the bytes can be counted, stripes are made of whole rows. -/
theorem bytesEach_of_fits (hfit : SizeFits w h) (hw : 0 < w.toNat) (workers : Nat) :
    bytesEach w (rowsEach h.toNat workers) = rowsEach h.toNat workers * w.toNat * 4 := by
  have hpos : 0 < rowsEach h.toNat workers * w.toNat :=
    Nat.mul_pos (rowsEach_pos ..) hw
  have hlt : rowsEach h.toNat workers * w.toNat * 4 < UInt64.size := by
    have hone : 1 * w.toNat * 4 < UInt64.size := by
      have hw' := w.toNat_lt
      simp only [UInt64.size]
      omega
    rcases Nat.le_total (ceilDiv h.toNat workers) 1 with hle | hle
    · rwa [rowsEach, Nat.max_eq_right hle]
    · refine Nat.lt_of_le_of_lt ?_ hfit
      rw [rowsEach, Nat.max_eq_left hle, Nat.mul_comm w.toNat]
      exact Nat.mul_le_mul_right 4 (Nat.mul_le_mul_right _ (ceilDiv_le ..))
  rw [bytesEach, toNat_rowBytes, Nat.mod_eq_of_lt hlt, Nat.max_eq_left (by omega)]

/-- Where the bytes can be counted, every pixel belongs to one stripe, -/
theorem flatMap_cells_share (hfit : SizeFits w h) (workers : Nat) :
    (share w h workers).flatMap (cells · w.toNat) = List.range (h.toNat * w.toNat) := by
  rcases Nat.eq_zero_or_pos w.toNat with hw | hw
  · have hbytes : imageBytes w h = 0 := by rw [hfit.imageBytes_eq, hw, Nat.zero_mul, Nat.zero_mul]
    rw [share_of_imageBytes_eq_zero hbytes, hw]
    rfl
  · rw [share_eq, bytesEach_of_fits hfit hw, hfit.imageBytes_eq, Nat.mul_comm w.toNat]
    exact flatMap_cells_cut h.toNat (rowsEach_pos ..) hw

/-- and stripes are made of whole pixels. -/
theorem dvd_bytes_of_mem_share (hfit : SizeFits w h) (hw : 0 < w.toNat) {workers : Nat}
    {s : Stripe} (hs : s ∈ share w h workers) : 4 ∣ s.bytes := by
  rw [share_eq, bytesEach_of_fits hfit hw] at hs
  exact dvd_bytes_of_mem_cut (four_dvd_imageBytes w h) (Nat.dvd_mul_left ..) hs

/-- Stripes are made of whole pixels, unless the product of a stripe's bytes wraps to nothing: then
they are too short for a pixel. -/
theorem dvd_bytes_or_pixels_eq_zero (w h : UInt32) (workers : Nat) :
    (∀ s ∈ share w h workers, 4 ∣ s.bytes) ∨ ∀ s ∈ share w h workers, s.pixels = 0 := by
  let rows := rowsEach h.toNat workers
  have hwrapped : 4 ∣ rows * w.toNat * 4 % UInt64.size :=
    (Nat.dvd_mod_iff (by decide)).2 (Nat.dvd_mul_left ..)
  have heach : bytesEach w rows = max (rows * w.toNat * 4 % UInt64.size) 1 := by
    rw [bytesEach, toNat_rowBytes]
  rw [share_eq]
  rcases Nat.eq_zero_or_pos (rows * w.toNat * 4 % UInt64.size) with hzero | hpos
  · refine .inr fun s hs ↦ ?_
    have hle := bytes_le_of_mem_cut hs
    rw [heach, hzero] at hle
    exact Nat.div_eq_of_lt (Nat.lt_of_le_of_lt hle (by decide))
  · refine .inl fun s hs ↦ dvd_bytes_of_mem_cut (four_dvd_imageBytes w h) ?_ hs
    rwa [heach, Nat.max_eq_left hpos]

/-- The last stripe may be shorter, and there may be fewer stripes than workers. -/
example : share 1 5 2 = [⟨0, 12⟩, ⟨3, 8⟩] ∧ share 1 2 5 = [⟨0, 4⟩, ⟨1, 4⟩] := by decide

end Stripe

end FieldGraph
