import ImageRegion.Allocator
import ImageRegion.Description
import ImageRegion.Pixel.Format

namespace ImageRegion

structure Options where
  sampleSize : Nat
  format : Option PixelFormat
  dither : Bool
  quality : Bool
  premultiplied : Bool
  deriving DecidableEq

namespace Options

def standard : Options := ⟨1, none, true, false, true⟩

def validate (o : Options) : Except Error Unit :=
  if o.sampleSize = 0 then .error .invalidSampleSize else .ok ()

end Options

structure Config where
  limits : Limits
  tileSize : Nat
  allocator : Allocator

namespace Config

def standardTileSize : Nat := 256

def standard : Config := ⟨.none, standardTileSize, .heap⟩

def withTileSize (c : Config) (size : Nat) : Config := { c with tileSize := max size 1 }

def describe (c : Config) : String :=
  let cap := Description.optional
  let limits := Description.record "ResourceLimits"
    [("max_source_bytes", cap c.limits.sourceBytes), ("max_width", cap c.limits.width),
      ("max_height", cap c.limits.height), ("max_pixels", cap c.limits.pixels),
      ("max_index_bytes", cap c.limits.indexBytes), ("max_region_bytes", cap c.limits.regionBytes)]
    true
  Description.record "RegionConfig" [("limits", limits), ("tile_size", toString c.tileSize)] false

end Config

end ImageRegion
