import FieldGraph.Render.Pixels

/-!
# Image files

An image as a file: eight bits for each of four channels, rows without prediction, and the data in
blocks that are stored as they are.
-/

namespace FieldGraph

/-- A file cannot hold an empty image. -/
inductive EmptyImage where
  | width
  | height
deriving DecidableEq, Repr

def EmptyImage.message : EmptyImage → String
  | width => "Zero width not allowed"
  | height => "Zero height not allowed"

/-- An image that a file can hold. -/
structure Png where
  image : PixelBuffer
  width_ne : image.width ≠ 0
  height_ne : image.height ≠ 0

namespace Png

/-- An image as a file, if it is not empty. -/
def ofImage (b : PixelBuffer) : Except EmptyImage Png :=
  if hw : b.width = 0 then .error .width
  else if hh : b.height = 0 then .error .height
  else .ok ⟨b, hw, hh⟩

/-! ## Checksums -/

/-- One bit of the cyclic checksum. -/
def crcBit (c : UInt32) : UInt32 := if c &&& 1 = 1 then (c >>> 1) ^^^ 0xedb88320 else c >>> 1

/-- One byte of the cyclic checksum. -/
def crcByte (c : UInt32) (b : UInt8) : UInt32 :=
  crcBit (crcBit (crcBit (crcBit (crcBit (crcBit (crcBit (crcBit (c ^^^ b.toUInt32))))))))

def crc (data : ByteArray) : UInt32 := data.foldl crcByte 0xffffffff ^^^ 0xffffffff

/-- The sum of the bytes and the sum of its intermediate values, each modulo 65521. -/
def adler (data : ByteArray) : UInt32 :=
  let (a, b) := data.foldl (fun (a, b) byte =>
    let a := (a + byte.toUInt32) % 65521
    (a, (b + a) % 65521)) ((1, 0) : UInt32 × UInt32)
  (b <<< 16) ||| a

/-! ## Chunks -/

/-- Four bytes, the most significant one first. -/
def word (n : UInt32) : ByteArray :=
  ⟨#[(n >>> 24).toUInt8, (n >>> 16).toUInt8, (n >>> 8).toUInt8, n.toUInt8]⟩

/-- A chunk of four letters and its data, with its length before and its checksum after it. -/
def chunk (kind : String) (data : ByteArray) : ByteArray :=
  let body := kind.toUTF8 ++ data
  word (UInt32.ofNat data.size) ++ body ++ word (crc body)

/-- The most bytes that a block can hold. -/
def blockSize : Nat := 65535

/-- A block that holds bytes as they are, with their number and its complement before them. -/
def block (last : Bool) (data : ByteArray) : ByteArray :=
  let n := UInt16.ofNat data.size
  let half (n : UInt16) : ByteArray := ⟨#[n.toUInt8, (n >>> 8).toUInt8]⟩
  (⟨#[if last then 1 else 0]⟩ : ByteArray) ++ half n ++ half (~~~n) ++ data

/-- Data that is stored in blocks, with its checksum after them. -/
def store (data : ByteArray) : ByteArray :=
  let blocks := (data.size - 1) / blockSize + 1
  let body := (List.range blocks).foldl (fun out i =>
    out ++ block (i + 1 = blocks) (data.extract (i * blockSize) ((i + 1) * blockSize)))
    (⟨#[0x78, 0x01]⟩ : ByteArray)
  body ++ word (adler data)

/-! ## Images -/

/-- The rows of an image, each after the mark that it is not predicted. -/
def rows (width height : Nat) (rgba : ByteArray) : ByteArray :=
  (List.range height).foldl (fun out y =>
    out.push 0 ++ rgba.extract (y * width * 4) ((y + 1) * width * 4)) ByteArray.empty

/-- The bytes of the file. -/
def bytes (f : Png) : ByteArray :=
  let b := f.image
  let signature : ByteArray := ⟨#[0x89, 0x50, 0x4e, 0x47, 0x0d, 0x0a, 0x1a, 0x0a]⟩
  let header := word b.width ++ word b.height ++ (⟨#[8, 6, 0, 0, 0]⟩ : ByteArray)
  let data := rows b.width.toNat b.height.toNat ⟨b.rgbaBytes.toArray⟩
  signature ++ chunk "IHDR" header ++ chunk "IDAT" (store data) ++ chunk "IEND" ByteArray.empty

end Png

end FieldGraph
