import ImageRegion.Image.Decode
import ImageRegion.Source.Adapter

namespace ImageRegion

structure Probe where
  encoding : Encoding
  allocator : Allocator

namespace Probe

def ofStream (s : Stream) : Except Error Probe × Stream :=
  match s.readExactAt 0 (min s.length Encoding.magicLength) with
  | (.error fault, s) => (.error (.sourceUnreadable fault), s)
  | (.ok bytes, s) =>
    match Encoding.detect? bytes.toList with
    | none => (.error .formatUnrecognized, s)
    | some encoding => (.ok ⟨encoding, .heap⟩, s)

def index (p : Probe) (s : Stream) (config : Config) : Except Failure (Image × Event) := do
  let (index, s, event) ← Index.build p.encoding s config
  .ok (⟨p.encoding, p.allocator, config.limits, index, .ofStream s⟩, event)

def describe (p : Probe) : String :=
  Description.record "Decoder" [("format", p.encoding.tag)] false

end Probe

def Failure.events (encoding : Encoding) : Failure → List Event
  | .error e => [.indexFailed encoding e]
  | _ => []

structure Viewer where
  image : Image
  width : Nat
  height : Nat

namespace Viewer

/-- Opens an image on a stream; `between` is what happens to the stream after the probe. -/
def openChanging (between : Stream → Stream) (s : Stream) (config : Config) :
    Except Failure Viewer × List Event :=
  match config.limits.checkSource s.length with
  | .error excess => (.error (.error (.limitExceeded excess)), [.openRejected excess])
  | .ok () =>
    match Probe.ofStream s with
    | (.error error, _) => (.error (.error error), [.openFailed error])
    | (.ok probe, s) =>
      match { probe with allocator := config.allocator }.index (between s) config with
      | .error failure => (.error failure, failure.events probe.encoding)
      | .ok (image, event) =>
        (.ok ⟨image, image.width, image.height⟩,
          [event, .opened image.encoding image.width image.height])

def openStream (s : Stream) (config : Config) : Except Failure Viewer × List Event :=
  openChanging id s config

def encoding (v : Viewer) : Encoding := v.image.encoding

def stream (v : Viewer) : Stream := v.image.feed.stream

def closing (v : Viewer) : Event := .closing v.encoding

def decode (v : Viewer) (rect : Rect) (o : Options) (stop : Stop) :
    Decoding (Bitmap × Region) × Viewer :=
  let (decoding, image) := v.image.decode rect o stop
  (decoding, { v with image })

def decodeInto (v : Viewer) (rect : Rect) (o : Options) (target : Bitmap) (stop : Stop) :
    Decoding Region × Bitmap × Viewer :=
  let (decoding, target, image) := v.image.decodeInto rect o target stop
  (decoding, target, { v with image })

def plainOptions (format : Option PixelFormat) (sampleSize : Nat) : Options :=
  { Options.standard with format, sampleSize }

def decodeRegion (v : Viewer) (target : Option Bitmap) (rect : Rect) (format : Option PixelFormat)
    (sampleSize : Nat) : Except Failure (Option Bitmap) × Option Bitmap × Viewer :=
  let o := plainOptions format sampleSize
  match target with
  | none =>
    let (decoding, v) := v.decode rect o .never
    (decoding.toExcept.map fun (bitmap, _) => some bitmap, none, v)
  | some target =>
    let (decoding, target, v) := v.decodeInto rect o target .never
    (decoding.toExcept.map fun _ => none, some target, v)

def follow (v : Viewer) (file : File) : Viewer :=
  { v with image.feed.stream := v.image.feed.stream.follow file }

def describe (v : Viewer) : String :=
  Description.record "RegionDecoder"
    [("decoder", v.image.describe), ("width", toString v.width), ("height", toString v.height)]
    true

end Viewer

end ImageRegion
