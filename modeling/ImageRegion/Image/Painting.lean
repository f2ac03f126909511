import ImageRegion.Image.Index
import ImageRegion.Image.Region
import ImageRegion.Pixel.Average
import ImageRegion.Pixel.Coding

/-!
Painting: the output rows of a region, one after the other from the top. Before each row a stop is
checked. The rows that are finished when painting ends for any reason stay as they are.
-/

namespace ImageRegion

structure Painting where
  region : Region
  quality : Bool
  coding : Coding

inductive Ending
  | finished
  | cancelled (reason : StopReason)
  | failed (fault : RowFault)
  | breached (breach : Breach)
  deriving DecidableEq

structure Painted where
  ending : Ending
  written : Array UInt8
  checks : Nat
  feed : Feed

namespace Painting

def pickRow (p : Painting) (index : Index) (f : Feed) (y : Nat) :
    Except RowFailure (Array Pixel) × Feed :=
  match index.readRow f (p.region.centreRow y) p.region.left p.region.sourceWidth with
  | (.error failure, f) => (.error failure, f)
  | (.ok row, f) =>
    (.ok (Array.ofFn fun x : Fin p.region.width =>
      row.getD (p.region.centreColumn x) .clear), f)

def tallyRow (p : Painting) (row : Array Pixel) (tallies : Array Tally) : Array Tally :=
  tallies.mapIdx fun x tally =>
    let columns := p.region.columns x
    (row.extract columns.first columns.stop).foldl Tally.add tally

def tallyRows (p : Painting) (index : Index) : (count y : Nat) → Feed → Array Tally →
    Except RowFailure (Array Tally) × Feed
  | 0, _, f, tallies => (.ok tallies, f)
  | count + 1, y, f, tallies =>
    match index.readRow f y p.region.left p.region.sourceWidth with
    | (.error failure, f) => (.error failure, f)
    | (.ok row, f) => tallyRows p index count (y + 1) f (p.tallyRow row tallies)

def averageRow (p : Painting) (index : Index) (f : Feed) (y : Nat) :
    Except RowFailure (Array Pixel) × Feed :=
  let rows := p.region.rows y
  match p.tallyRows index rows.length rows.first f (.replicate p.region.width .zero) with
  | (.error failure, f) => (.error failure, f)
  | (.ok tallies, f) =>
    (.ok (tallies.mapIdx fun x tally =>
      tally.average (.ofNat ((p.region.columns x).length * rows.length))), f)

def sampleRow (p : Painting) (index : Index) (f : Feed) (y : Nat) :
    Except RowFailure (Array Pixel) × Feed :=
  if p.quality then p.averageRow index f y else p.pickRow index f y

/-- Paints `count` rows from output row `y` on, behind those already written. The check before
row `y` has number `y + 1`. -/
def paint (p : Painting) (index : Index) (stop : Stop) : (count y : Nat) → Array UInt8 → Feed →
    Painted
  | 0, y, written, f => ⟨.finished, written, y, f⟩
  | count + 1, y, written, f =>
    match stop (y + 1) with
    | some reason => ⟨.cancelled reason, written, y + 1, f⟩
    | none =>
      match p.sampleRow index f y with
      | (.error (.fault fault), f) => ⟨.failed fault, written, y + 1, f⟩
      | (.error (.breach breach), f) => ⟨.breached breach, written, y + 1, f⟩
      | (.ok row, f) => paint p index stop count (y + 1) (written ++ p.coding.row y row) f

def run (p : Painting) (index : Index) (stop : Stop) (f : Feed) : Painted :=
  p.paint index stop p.region.height 0 #[] f

end Painting

end ImageRegion
