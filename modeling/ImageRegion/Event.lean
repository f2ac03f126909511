import ImageRegion.Error
import ImageRegion.Pixel.Format

namespace ImageRegion

inductive Level
  | warn
  | debug
  | trace
  deriving DecidableEq

def Level.name : Level → String
  | .warn => "warn"
  | .debug => "debug"
  | .trace => "trace"

inductive Event
  | openRejected (excess : Excess)
  | openFailed (error : Error)
  | indexFailed (encoding : Encoding) (error : Error)
  | pnmIndexed (width height channels maxval dataOffset : Nat)
  | farbfeldIndexed (width height : Nat)
  | tilesIndexed (encoding : Encoding) (width height tiles tileSize : Nat)
  | opened (encoding : Encoding) (width height : Nat)
  | closing (encoding : Encoding)
  | decoding (encoding : Encoding) (requested clamped : Rect) (sample width height : Nat)
      (format : PixelFormat)
  | decodeCancelled (encoding : Encoding) (reason : StopReason)
  | handleCreated (handle : Handle)
  | handleReleased (handle : Handle)
  deriving DecidableEq

namespace Event

def level : Event → Level
  | .openRejected _ | .openFailed _ | .indexFailed _ _ => .warn
  | .handleCreated _ | .handleReleased _ => .trace
  | _ => .debug

def text : Event → String
  | .openRejected excess => s!"region open rejected: {excess.message}"
  | .openFailed error => s!"region open failed: {error.message}"
  | .indexFailed encoding error => s!"{encoding.name} tile index failed: {error.message}"
  | .pnmIndexed width height channels maxval dataOffset =>
    s!"pnm index: {width}x{height} channels={channels} maxval={maxval} data@{dataOffset}"
  | .farbfeldIndexed width height => s!"farbfeld index: {width}x{height}"
  | .tilesIndexed encoding width height tiles tileSize =>
    s!"{encoding.name} index: {width}x{height} in {tiles} tiles of {tileSize}"
  | .opened encoding width height =>
    s!"opened {encoding.name} region decoder: {width}x{height}, random access: " ++
      toString encoding.hasRandomAccess
  | .closing encoding => s!"closing {encoding.name} region decoder"
  | .decoding encoding requested clamped sample width height format =>
    s!"decode {encoding.name} region {requested.text} -> {clamped.text} @1/{sample}: " ++
      s!"{width}x{height} {format.name}"
  | .decodeCancelled encoding reason =>
    s!"{encoding.name} region decode cancelled: {reason.message}"
  | .handleCreated handle => s!"region handle {handle.text} created"
  | .handleReleased handle => s!"region handle {handle.text} released"

end Event

end ImageRegion
