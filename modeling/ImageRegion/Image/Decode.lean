import ImageRegion.Bitmap
import ImageRegion.Image.Painting

/-!
Decoding a region of an indexed image, into a fresh bitmap or into one that is used again. A
request is planned before anything is allocated or written, so a request that fails to plan leaves
no trace.
-/

namespace ImageRegion

structure Image where
  encoding : Encoding
  allocator : Allocator
  limits : Limits
  index : Index
  feed : Feed

structure Decoding (α : Type) where
  result : Except Failure (Outcome α)
  checks : Nat
  requests : List Nat
  events : List Event

def Decoding.isUnwound {α : Type} (d : Decoding α) : Bool :=
  match d.result with
  | .error (.breached _) | .error (.unwound _) => true
  | _ => false

def Decoding.toExcept {α : Type} (d : Decoding α) : Except Failure α :=
  match d.result with
  | .ok outcome => Failure.raise outcome.toExcept
  | .error failure => .error failure

inductive Halt
  | error (error : Error)
  | cancelled (reason : StopReason)
  deriving DecidableEq

def Halt.result {α : Type} : Halt → Except Failure (Outcome α)
  | .error e => .error (.error e)
  | .cancelled reason => .ok (.cancelled reason)

def Ending.result {α : Type} (value : α) : Ending → Except Failure (Outcome α)
  | .finished => .ok (.decoded value)
  | .cancelled reason => .ok (.cancelled reason)
  | .failed fault => .error (.error (.decodeFailed fault))
  | .breached breach => .error (.breached breach)

def Ending.events (encoding : Encoding) : Ending → List Event
  | .cancelled reason => [.decodeCancelled encoding reason]
  | _ => []

/-- The bitmap that was painted on. Its generation changes however painting ended, unless a breach
cut it short. -/
def Painted.onto (painted : Painted) (b : Bitmap) : Bitmap :=
  match painted.ending with
  | .breached _ => b.overwrite painted.written
  | _ => (b.overwrite painted.written).touch

namespace Image

def width (im : Image) : Nat := im.index.width

def height (im : Image) : Nat := im.index.height

def bounds (im : Image) : Rect := .ofSize im.width im.height

def regionOf (im : Image) (clamped : Rect) (o : Options) : Region :=
  let (width, height) := clamped.sampledSize o.sampleSize
  ⟨width, height, o.format.getD im.index.nativeFormat, clamped, o.sampleSize, im.encoding⟩

/-- Finds the region of a request. The sample size is looked at first, then the first check is
made, then come the rectangle and the limit. -/
def plan (im : Image) (rect : Rect) (o : Options) (stop : Stop) : Except Halt Region :=
  if o.sampleSize = 0 then .error (.error .invalidSampleSize)
  else
    match stop 0 with
    | some reason => .error (.cancelled reason)
    | none =>
      match im.bounds.intersect? rect with
      | none => .error (.error (.emptyRegion rect))
      | some clamped =>
        let region := im.regionOf clamped o
        match im.limits.checkRegion region.byteLength with
        | .error excess => .error (.error (.limitExceeded excess))
        | .ok () => .ok region

def planChecks (o : Options) : Nat := if o.sampleSize = 0 then 0 else 1

def planned (im : Image) (rect : Rect) (r : Region) : Event :=
  .decoding im.encoding rect r.rect r.sampleSize r.width r.height r.format

def paint (im : Image) (r : Region) (o : Options) (stop : Stop) : Painted :=
  Painting.run ⟨r, o.quality, ⟨r.format, o.premultiplied, o.dither⟩⟩ im.index stop im.feed

def decode (im : Image) (rect : Rect) (o : Options) (stop : Stop) :
    Decoding (Bitmap × Region) × Image :=
  match im.plan rect o stop with
  | .error halt => (⟨halt.result, planChecks o, [], []⟩, im)
  | .ok region =>
    let requests := [region.byteLength]
    let event := im.planned rect region
    match im.allocator.allot region.byteLength with
    | .refused error => (⟨.error (.error error), 1, requests, [event]⟩, im)
    | .abandoned message => (⟨.error (.unwound message), 1, requests, [event]⟩, im)
    | .storage storage =>
      let painted := im.paint region o stop
      let bitmap := Bitmap.ofStorage storage region.width region.height region.format
        o.premultiplied
      (⟨painted.ending.result (bitmap.overwrite painted.written, region), 1 + painted.checks,
          requests, event :: painted.ending.events im.encoding⟩,
        { im with feed := painted.feed })

def decodeInto (im : Image) (rect : Rect) (o : Options) (target : Bitmap) (stop : Stop) :
    Decoding Region × Bitmap × Image :=
  match im.plan rect o stop with
  | .error halt => (⟨halt.result, planChecks o, [], []⟩, target, im)
  | .ok region =>
    let event := im.planned rect region
    match target.reconfigure region.width region.height region.format o.premultiplied with
    | .error error => (⟨.error (.error error), 1, [], [event]⟩, target, im)
    | .ok bitmap =>
      let painted := im.paint region o stop
      (⟨painted.ending.result region, 1 + painted.checks, [],
          event :: painted.ending.events im.encoding⟩,
        painted.onto bitmap, { im with feed := painted.feed })

def describe (im : Image) : String :=
  Description.record "IndexedDecoder"
    [("format", im.encoding.tag), ("width", toString im.width), ("height", toString im.height)]
    false

end Image

end ImageRegion
