import ImageRegion.Error
import ImageRegion.Pixel.Coding

/-!
Bitmaps: packed rows at the start of a storage that may be longer. What is left over is what makes
it possible to use a bitmap again for a smaller image. The generation changes with every change of
the pixels.
-/

namespace ImageRegion

structure Bitmap where
  width : Nat
  height : Nat
  format : PixelFormat
  premultiplied : Bool
  generation : UInt64
  storage : Array UInt8
  deriving DecidableEq

structure View where
  width : Nat
  height : Nat
  pixels : Array Pixel
  deriving DecidableEq

namespace Bitmap

def maxBytes : Nat := 0x7FFFFFFFFFFFFFFF

def blank (width height : Nat) (format : PixelFormat) : Except Breach Bitmap :=
  match Word.product64 (format.rowBytes width) height with
  | .error cause => .error (.overflow cause)
  | .ok bytes =>
    if maxBytes < bytes then .error .capacityOverflow
    else .ok ⟨width, height, format, true, 0, .replicate bytes 0⟩

def ofStorage (storage : Array UInt8) (width height : Nat) (format : PixelFormat)
    (premultiplied : Bool) : Bitmap :=
  ⟨width, height, format, premultiplied, 0, storage⟩

def stride (b : Bitmap) : Nat := b.format.rowBytes b.width

def capacity (b : Bitmap) : Nat := b.storage.size

def byteLength (b : Bitmap) : Nat := b.format.imageBytes b.width b.height

def bytes (b : Bitmap) : Array UInt8 := b.storage.extract 0 b.byteLength

def row? (b : Bitmap) (y : Nat) : Except Breach (Array UInt8) :=
  if y < b.height then .ok (b.storage.extract (y * b.stride) (y * b.stride + b.stride))
  else .error (.rowOutOfBounds y b.height)

def overwrite (b : Bitmap) (written : Array UInt8) : Bitmap :=
  { b with storage := written ++ b.storage.extract written.size b.storage.size }

/-- Puts bytes over the image from `start`; what would lie past the image is dropped. -/
def write (b : Bitmap) (start : Nat) (bytes : Array UInt8) : Bitmap :=
  let stop := min (start + bytes.size) (min b.byteLength b.capacity)
  if start < stop then
    { b with
      storage := b.storage.extract 0 start ++ bytes.extract 0 (stop - start) ++
        b.storage.extract stop b.storage.size }
  else b

def touch (b : Bitmap) : Bitmap := { b with generation := b.generation + 1 }

def reconfigure (b : Bitmap) (width height : Nat) (format : PixelFormat) (premultiplied : Bool) :
    Except Error Bitmap :=
  let required := format.imageBytes width height
  if b.capacity < required then .error (.reuseBufferTooSmall required b.capacity)
  else .ok { b with width, height, format, premultiplied }

def expand (b : Bitmap) : Except Breach View :=
  if b.width = 0 then .error (.viewWithoutWidth b.width b.height)
  else .ok ⟨b.width, b.height, b.format.pixels b.bytes⟩

def view? (b : Bitmap) : Option (Except Breach View) :=
  if b.format = .rgba8 then some b.expand else none

def describe (b : Bitmap) : String :=
  let premultiplied := if b.premultiplied then " premul" else ""
  s!"Bitmap({b.width}x{b.height}, {b.format.name}{premultiplied}, gen {b.generation})"

theorem byteLength_eq (b : Bitmap) :
    b.byteLength = b.width * b.height * b.format.bytesPerPixel := Nat.mul_right_comm ..

theorem capacity_blank {width height : Nat} {format : PixelFormat} {b : Bitmap}
    (h : blank width height format = .ok b) : b.capacity = format.imageBytes width height := by
  by_cases hw : format.rowBytes width * height < 0x10000000000000000
  · rw [blank, Word.product64_eq_ok_iff.2 ⟨rfl, hw⟩] at h
    dsimp only at h
    split at h
    · cases h
    · cases h
      simp [capacity, PixelFormat.imageBytes]
  · simp [blank, Word.product64, hw] at h

theorem capacity_overwrite (b : Bitmap) (written : Array UInt8) (h : written.size ≤ b.capacity) :
    (b.overwrite written).capacity = b.capacity := by
  simp only [capacity, overwrite, Array.size_append, Array.size_extract] at h ⊢
  omega

end Bitmap

end ImageRegion
