import FieldGraph.Vector

/-!
# Pixels

Images hold four bytes for each pixel, row by row.  The byte order is a matter of storage: pixels
are always read back as red, green, blue and alpha.
-/

namespace FieldGraph

/-- A color in eight bits a channel. -/
structure Rgba where
  r : UInt8
  g : UInt8
  b : UInt8
  a : UInt8
deriving DecidableEq, Repr

namespace Rgba

/-- Quantize a linear color to an opaque pixel; channels are limited to the unit interval. -/
def ofColor (c : Vec3) : Rgba :=
  let q (x : Scalar) : UInt8 := (x.saturate * 255.0).toByte
  ⟨q c.x, q c.y, q c.z, 255⟩

end Rgba

/-- Four bytes as they are stored. -/
structure Quad where
  first : UInt8
  second : UInt8
  third : UInt8
  fourth : UInt8
deriving DecidableEq, Repr

def Quad.toList (q : Quad) : List UInt8 := [q.first, q.second, q.third, q.fourth]

/-- The order of a pixel's bytes. -/
inductive PixelFormat where
  | rgba8
  | bgra8
deriving DecidableEq, Repr

namespace PixelFormat

instance : Inhabited PixelFormat := ⟨rgba8⟩

def name : PixelFormat → String
  | rgba8 => "rgba8"
  | bgra8 => "bgra8"

def ofName? : String → Option PixelFormat
  | "rgba8" => some rgba8
  | "bgra8" => some bgra8
  | _ => none

def encode : PixelFormat → Rgba → Quad
  | rgba8, p => ⟨p.r, p.g, p.b, p.a⟩
  | bgra8, p => ⟨p.b, p.g, p.r, p.a⟩

def decode : PixelFormat → Quad → Rgba
  | rgba8, q => ⟨q.first, q.second, q.third, q.fourth⟩
  | bgra8, q => ⟨q.third, q.second, q.first, q.fourth⟩

@[simp] theorem decode_encode (f : PixelFormat) (p : Rgba) : f.decode (f.encode p) = p := by
  cases f <;> rfl

@[simp] theorem encode_decode (f : PixelFormat) (q : Quad) : f.encode (f.decode q) = q := by
  cases f <;> rfl

end PixelFormat

/-! ## Sizes -/

/-- The bytes that an image of a size takes, as a product of words of 64 bits: it wraps for sizes that
are too large. -/
def imageBytes (width height : UInt32) : Nat := (width.toUInt64 * height.toUInt64 * 4).toNat

/-- The bytes of an image of a size can be counted in a word. -/
def SizeFits (width height : UInt32) : Prop := width.toNat * height.toNat * 4 < UInt64.size

instance (width height : UInt32) : Decidable (SizeFits width height) :=
  inferInstanceAs (Decidable (_ < _))

theorem imageBytes_eq_mod (width height : UInt32) :
    imageBytes width height = width.toNat * height.toNat * 4 % UInt64.size := by
  simp [imageBytes, UInt64.size]

theorem SizeFits.imageBytes_eq {width height : UInt32} (h : SizeFits width height) :
    imageBytes width height = width.toNat * height.toNat * 4 :=
  (imageBytes_eq_mod width height).trans (Nat.mod_eq_of_lt h)

/-- A product that wraps is still one of whole pixels. -/
theorem four_dvd_imageBytes (width height : UInt32) : 4 ∣ imageBytes width height := by
  rw [imageBytes_eq_mod]
  exact (Nat.dvd_mod_iff (by decide)).2 (Nat.dvd_mul_left ..)

/-! ## Buffers -/

/-- An image, row by row from the top. -/
@[ext]
structure PixelBuffer where
  width : UInt32
  height : UInt32
  format : PixelFormat
  data : Array UInt8
  size_data : data.size = imageBytes width height
deriving DecidableEq

/-- The data of an image does not have the size of the image. -/
structure BufferSizeError where
  width : UInt32
  height : UInt32
  found : Nat
deriving DecidableEq, Repr

def BufferSizeError.message (e : BufferSizeError) : String :=
  "Pixel buffer holds " ++ toString e.found ++ " bytes, expected " ++
    toString (imageBytes e.width e.height) ++ " for " ++ toString e.width ++ "x" ++ toString e.height

namespace PixelBuffer

def ofBytes (width height : UInt32) (format : PixelFormat) (data : Array UInt8) :
    Except BufferSizeError PixelBuffer :=
  if h : data.size = imageBytes width height then .ok ⟨width, height, format, data, h⟩
  else .error ⟨width, height, data.size⟩

/-- The four bytes from a position on. -/
def quad? (b : PixelBuffer) (start : Nat) : Option Quad := do
  return ⟨← b.data[start]?, ← b.data[start + 1]?, ← b.data[start + 2]?, ← b.data[start + 3]?⟩

/-- The byte that the pixel in a column and a row begins with, counted in words as well. -/
def place (b : PixelBuffer) (x y : Nat) : Nat := (UInt64.ofNat (y * b.width.toNat + x) * 4).toNat

/-- The pixel in a column and a row. -/
def pixel? (b : PixelBuffer) (x y : Nat) : Option Rgba :=
  if x < b.width.toNat ∧ y < b.height.toNat then (b.quad? (b.place x y)).map b.format.decode
  else none

/-- Reorder bytes four at a time; a rest of less than four is dropped. -/
def decodeBytes (format : PixelFormat) : List UInt8 → List UInt8
  | p :: q :: r :: s :: rest =>
    let px := format.decode ⟨p, q, r, s⟩
    px.r :: px.g :: px.b :: px.a :: decodeBytes format rest
  | _ => []

/-- All pixels as red, green, blue and alpha. -/
def rgbaBytes (b : PixelBuffer) : List UInt8 :=
  match b.format with
  | .rgba8 => b.data.toList
  | .bgra8 => decodeBytes .bgra8 b.data.toList

/-- The image as red, green, blue and alpha.  Here the bytes are counted exactly, and must be there. -/
def toRgba (b : PixelBuffer) : Except BufferSizeError (List UInt8) :=
  if b.width.toNat * b.height.toNat * 4 ≤ b.rgbaBytes.length then .ok b.rgbaBytes
  else .error ⟨b.width, b.height, b.data.size⟩

end PixelBuffer

end FieldGraph
