import ImageRegion.Geometry.Rect
import ImageRegion.Geometry.Span
import ImageRegion.Encoding
import ImageRegion.Pixel.Format

namespace ImageRegion

structure Region where
  width : Nat
  height : Nat
  format : PixelFormat
  rect : Rect
  sampleSize : Nat
  encoding : Encoding
  deriving DecidableEq

namespace Region

def byteLength (r : Region) : Nat := r.format.imageBytes r.width r.height

def left (r : Region) : Nat := r.rect.left.toNat

def sourceWidth (r : Region) : Nat := r.rect.width

def rows (r : Region) (y : Nat) : Span :=
  .block r.rect.top.toNat r.rect.bottom.toNat r.sampleSize y

def columns (r : Region) (x : Nat) : Span := .block 0 r.sourceWidth r.sampleSize x

def centreRow (r : Region) (y : Nat) : Nat := Span.centre r.sampleSize (r.rows y)

def centreColumn (r : Region) (x : Nat) : Nat := Span.centre r.sampleSize (r.columns x)

end Region

end ImageRegion
