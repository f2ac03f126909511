import ImageRegion.Error
import ImageRegion.Pixel.Format

/-!
Mosaics: a decoded image cut into square tiles, from left to right and from top to bottom. Tiles at
the right and bottom edges are narrower or lower. Sizes and positions are words of 32 bits, and an
image for which one does not fit is not cut.
-/

namespace ImageRegion

structure Mosaic where
  width : Nat
  height : Nat
  native : PixelFormat
  tileSize : Nat
  tiles : Array (Array Pixel)

namespace Mosaic

open Word

def tilesAlong (tileSize extent : Nat) : Nat := ceilDiv extent tileSize

def extentOf (tileSize extent t : Nat) : Nat := min tileSize (extent - t * tileSize)

def cut (width height tileSize : Nat) (pixels : Array Pixel) (tx ty : Nat) : Array Pixel :=
  (Array.range (extentOf tileSize height ty)).flatMap fun dy =>
    let start := (ty * tileSize + dy) * width + tx * tileSize
    pixels.extract start (start + extentOf tileSize width tx)

/-- The number of tiles fits a word, and so do, tile by tile, its size and where its rows start. -/
def checkCuts (width height tileSize : Nat) : Except Overflow Unit := do
  let _ ← product32 (tilesAlong tileSize width) (tilesAlong tileSize height)
  (List.range (tilesAlong tileSize height)).forM fun ty =>
    (List.range (tilesAlong tileSize width)).forM fun tx => do
      let _ ← product32 (extentOf tileSize width tx) (extentOf tileSize height ty)
      (List.range (extentOf tileSize height ty)).forM fun dy => do
        let _ ← sum32 (← product32 (ty * tileSize + dy) width) (tx * tileSize)

def ofPixels (width height : Nat) (native : PixelFormat) (tileSize : Nat)
    (pixels : Array Pixel) : Mosaic where
  width := width
  height := height
  native := native
  tileSize := tileSize
  tiles :=
    (Array.range (tilesAlong tileSize height)).flatMap fun ty =>
      (Array.range (tilesAlong tileSize width)).map fun tx =>
        cut width height tileSize pixels tx ty

def indexBytes (width height : Nat) : Except Overflow Nat := do
  product64 (← product64 width height) 4

def pixelAt (m : Mosaic) (y x : Nat) : Pixel :=
  let tx := x / m.tileSize
  let tile := m.tiles.getD (y / m.tileSize * tilesAlong m.tileSize m.width + tx) #[]
  tile.getD (y % m.tileSize * extentOf m.tileSize m.width tx + x % m.tileSize) .clear

def readRow (m : Mosaic) (y x count : Nat) : Except RowFailure (Array Pixel) :=
  if m.height ≤ y ∨ m.width < x + count then .error (.fault (.outsideTiles y x))
  else .ok (Array.ofFn fun i : Fin count => m.pixelAt y (x + i))

end Mosaic

end ImageRegion
