import ImageRegion.Event
import ImageRegion.Netpbm.Header
import ImageRegion.Pixel.Scale
import ImageRegion.Source.Feed

namespace ImageRegion.Netpbm.Header

def bytesPerSample (h : Header) : Nat := if 255 < h.maxval then 2 else 1

def pixelBytes (h : Header) : Nat := h.channels * h.bytesPerSample

def rowBytes (h : Header) : Nat := h.width * h.pixelBytes

def neededBytes (h : Header) : Nat :=
  Word.cap64 (Word.cap64 (h.rowBytes * h.height) + h.dataOffset)

def nativeFormat (h : Header) : PixelFormat := if h.channels = 1 then .gray8 else .rgba8

def offsetOf (h : Header) (x y : Nat) : Except Word.Overflow Nat :=
  Word.offset64 h.dataOffset y h.rowBytes x h.pixelBytes

def sampleAt (h : Header) (bytes : Array UInt8) (i : Nat) : UInt8 :=
  rescale h.maxval <|
    if h.bytesPerSample = 2 then bigEndian16 (bytes.getD i 0) (bytes.getD (i + 1) 0)
    else (bytes.getD i 0).toNat

def pixelAt (h : Header) (bytes : Array UInt8) (i : Nat) : Pixel :=
  if h.channels = 1 then .gray (h.sampleAt bytes i)
  else
    ⟨h.sampleAt bytes i, h.sampleAt bytes (i + h.bytesPerSample),
      h.sampleAt bytes (i + 2 * h.bytesPerSample), 255⟩

def readRow (h : Header) (f : Feed) (y x count : Nat) :
    Except RowFailure (Array Pixel) × Feed :=
  match h.offsetOf x y with
  | .error cause => (.error (.breach (.overflow cause)), f)
  | .ok offset =>
    match f.load offset (count * h.pixelBytes) with
    | (.error fault, f) => (.error (.fault (.pnmRow y fault)), f)
    | (.ok (), f) =>
      (.ok (Array.ofFn fun i : Fin count => h.pixelAt f.buffer (i * h.pixelBytes)), f)

def ofStream (s : Stream) (limits : Limits) : Except Error (Header × Stream × Event) :=
  match s.readExactAt 0 (min s.length maxHeaderBytes) with
  | (.error fault, _) => .error (.indexBuildFailed .pnm (.unreadable fault))
  | (.ok bytes, s) =>
    match parse bytes.toList with
    | .error flaw => .error (.indexBuildFailed .pnm flaw)
    | .ok h => do
      Limits.raise (limits.checkImage h.width h.height)
      if s.length < h.neededBytes then
        .error (.indexBuildFailed .pnm (.truncatedData s.length h.neededBytes))
      else .ok (h, s, .pnmIndexed h.width h.height h.channels h.maxval h.dataOffset)

end ImageRegion.Netpbm.Header
