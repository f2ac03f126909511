import ImageRegion.Encoding
import ImageRegion.Pixel.Scale
import ImageRegion.Pixel.Format

/-!
Rasters: the samples that a file of a compressed encoding holds, row by row, and the pixels that
its decoder makes of them. Samples of sixteen bits have their high byte first.
-/

namespace ImageRegion

inductive Channels
  | gray
  | grayAlpha
  | rgb
  | rgba
  deriving DecidableEq

namespace Channels

def count : Channels → Nat
  | .gray => 1
  | .grayAlpha => 2
  | .rgb => 3
  | .rgba => 4

def pixel (sample : Nat → UInt8) : Channels → Pixel
  | .gray => .gray (sample 0)
  | .grayAlpha => { Pixel.gray (sample 0) with alpha := sample 1 }
  | .rgb => ⟨sample 0, sample 1, sample 2, 255⟩
  | .rgba => ⟨sample 0, sample 1, sample 2, sample 3⟩

end Channels

structure Raster where
  encoding : Encoding
  channels : Channels
  isDeep : Bool
  width : Nat
  height : Nat
  byteAt : Nat → UInt8

namespace Raster

def bytesPerSample (r : Raster) : Nat := if r.isDeep then 2 else 1

def bytesPerPixel (r : Raster) : Nat := r.channels.count * r.bytesPerSample

def sampleAt (r : Raster) (i : Nat) : UInt8 :=
  if r.isDeep then narrow (bigEndian16 (r.byteAt (2 * i)) (r.byteAt (2 * i + 1))) else r.byteAt i

def pixels (r : Raster) : Array Pixel :=
  Array.ofFn fun i : Fin (r.width * r.height) =>
    r.channels.pixel fun c => r.sampleAt (i * r.channels.count + c)

theorem size_pixels (r : Raster) : r.pixels.size = r.width * r.height := by
  simp [pixels]

end Raster

end ImageRegion
