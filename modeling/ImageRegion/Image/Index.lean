import ImageRegion.Farbfeld
import ImageRegion.Mosaic
import ImageRegion.Netpbm.Rows
import ImageRegion.Request.Options

/-!
Indexes: what makes the rows of an image available in any order. The streamed encodings keep their
header and read each row from the source; all others keep the decoded pixels as a mosaic.
-/

namespace ImageRegion

inductive Index
  | pnm (header : Netpbm.Header)
  | farbfeld (header : Farbfeld.Header)
  | tiled (mosaic : Mosaic)

namespace Index

def width : Index → Nat
  | .pnm h => h.width
  | .farbfeld h => h.width
  | .tiled m => m.width

def height : Index → Nat
  | .pnm h => h.height
  | .farbfeld h => h.height
  | .tiled m => m.height

def nativeFormat : Index → PixelFormat
  | .pnm h => h.nativeFormat
  | .farbfeld _ => .rgba8
  | .tiled m => m.native

def readRow (index : Index) (f : Feed) (y x count : Nat) :
    Except RowFailure (Array Pixel) × Feed :=
  match index with
  | .pnm h => h.readRow f y x count
  | .farbfeld h => h.readRow f y x count
  | .tiled m => (m.readRow y x count, f)

def admitTiles (limits : Limits) (encoding : Encoding) (width height : Nat) :
    Except Failure Unit := do
  if width = 0 ∨ height = 0 then .error (.error (.indexBuildFailed encoding .zeroDimension))
  Failure.raise (Limits.raise (limits.checkImage width height))
  let bytes ← Failure.fitting (Mosaic.indexBytes width height)
  Failure.raise (Limits.raise (limits.checkIndex bytes))

def tile (encoding : Encoding) (s : Stream) (config : Config) :
    Except Failure (Index × Stream × Event) :=
  match s.seek (.start 0) with
  | (.error fault, _) => .error (.error (.indexBuildFailed encoding (.unreadable fault)))
  | (.ok _, s) =>
    match s.content.decoded encoding with
    | .unreadable => .error (.error (.indexBuildFailed encoding .refused))
    | .sized width height => do
      admitTiles config.limits encoding width height
      .error (.error (.indexBuildFailed encoding .refused))
    | .whole width height native pixels => do
      admitTiles config.limits encoding width height
      Failure.fitting (Mosaic.checkCuts width height config.tileSize)
      let mosaic := Mosaic.ofPixels width height native config.tileSize pixels
      .ok (.tiled mosaic, s,
        .tilesIndexed encoding width height mosaic.tiles.size config.tileSize)

def build (encoding : Encoding) (s : Stream) (config : Config) :
    Except Failure (Index × Stream × Event) :=
  match encoding with
  | .pnm => do
    let (h, s, event) ← Failure.raise (Netpbm.Header.ofStream s config.limits)
    .ok (.pnm h, s, event)
  | .farbfeld => do
    let (h, s, event) ← Failure.raise (Farbfeld.Header.ofStream s config.limits)
    .ok (.farbfeld h, s, event)
  | encoding => tile encoding s config

end Index

end ImageRegion
