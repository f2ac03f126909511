namespace ImageRegion

/-- Colour and opacity of one pixel; the colour is not multiplied by the opacity. -/
structure Pixel where
  red : UInt8
  green : UInt8
  blue : UInt8
  alpha : UInt8
  deriving DecidableEq

namespace Pixel

def clear : Pixel := ⟨0, 0, 0, 0⟩

def gray (v : UInt8) : Pixel := ⟨v, v, v, 255⟩

instance : Inhabited Pixel := ⟨clear⟩

end Pixel

inductive PixelFormat
  | rgba8
  | rgb565
  | gray8
  | alpha8
  deriving DecidableEq

namespace PixelFormat

def name : PixelFormat → String
  | .rgba8 => "RGBA8"
  | .rgb565 => "RGB565"
  | .gray8 => "Gray8"
  | .alpha8 => "Alpha8"

def bytesPerPixel : PixelFormat → Nat
  | .rgba8 => 4
  | .rgb565 => 2
  | .gray8 | .alpha8 => 1

def hasAlpha : PixelFormat → Bool
  | .rgba8 | .alpha8 => true
  | .rgb565 | .gray8 => false

def rowBytes (f : PixelFormat) (width : Nat) : Nat := width * f.bytesPerPixel

def imageBytes (f : PixelFormat) (width height : Nat) : Nat := f.rowBytes width * height

theorem bytesPerPixel_pos (f : PixelFormat) : 0 < f.bytesPerPixel := by
  cases f <;> decide

theorem rowBytes_pos (f : PixelFormat) {width : Nat} (h : 0 < width) : 0 < f.rowBytes width :=
  Nat.mul_pos h f.bytesPerPixel_pos

end PixelFormat

end ImageRegion
