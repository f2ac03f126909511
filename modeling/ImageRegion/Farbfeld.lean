import ImageRegion.Event
import ImageRegion.Pixel.Scale
import ImageRegion.Source.Feed

/-!
Farbfeld: a magic of eight bytes, width and height in four bytes each, then four samples of two
bytes for each pixel, the high byte first everywhere.
-/

namespace ImageRegion.Farbfeld

structure Header where
  width : Nat
  height : Nat
  deriving DecidableEq

def headerBytes : Nat := 16

def pixelBytes : Nat := 8

def bigEndian32 (a b c d : UInt8) : Nat := bigEndian16 a b * 65536 + bigEndian16 c d

namespace Header

def parse (bytes : List UInt8) : Except Flaw Header :=
  if ByteClass.startsWith Encoding.farbfeld.magic bytes then
    match bytes.drop 8 with
    | [a, b, c, d, e, f, g, h] =>
      let width := bigEndian32 a b c d
      let height := bigEndian32 e f g h
      if width = 0 ∨ height = 0 then .error .zeroDimension else .ok ⟨width, height⟩
    | _ => .error .truncatedHeader
  else .error .missingMagic

def rowBytes (h : Header) : Nat := h.width * pixelBytes

/-- The length a source has to have; one that is no word counts as the greatest word. -/
def neededBytes (h : Header) : Nat :=
  Word.cap64 (Word.cap64 (h.width * h.height * pixelBytes) + headerBytes)

def offsetOf (h : Header) (x y : Nat) : Except Word.Overflow Nat :=
  Word.offset64 headerBytes y h.rowBytes x pixelBytes

end Header

def sampleAt (bytes : Array UInt8) (i : Nat) : UInt8 :=
  rescale 65535 (bigEndian16 (bytes.getD i 0) (bytes.getD (i + 1) 0))

def pixelAt (bytes : Array UInt8) (i : Nat) : Pixel :=
  ⟨sampleAt bytes i, sampleAt bytes (i + 2), sampleAt bytes (i + 4), sampleAt bytes (i + 6)⟩

namespace Header

def readRow (h : Header) (f : Feed) (y x count : Nat) :
    Except RowFailure (Array Pixel) × Feed :=
  match h.offsetOf x y with
  | .error cause => (.error (.breach (.overflow cause)), f)
  | .ok offset =>
    match f.load offset (count * pixelBytes) with
    | (.error fault, f) => (.error (.fault (.farbfeldRow y fault)), f)
    | (.ok (), f) =>
      (.ok (Array.ofFn fun i : Fin count => pixelAt f.buffer (i * pixelBytes)), f)

def ofStream (s : Stream) (limits : Limits) : Except Error (Header × Stream × Event) :=
  match s.readExactAt 0 headerBytes with
  | (.error _, _) => .error (.indexBuildFailed .farbfeld .truncatedHeader)
  | (.ok bytes, s) =>
    match parse bytes.toList with
    | .error flaw => .error (.indexBuildFailed .farbfeld flaw)
    | .ok h => do
      Limits.raise (limits.checkImage h.width h.height)
      if s.length < h.neededBytes then
        .error (.indexBuildFailed .farbfeld (.truncatedData s.length h.neededBytes))
      else .ok (h, s, .farbfeldIndexed h.width h.height)

end Header

end ImageRegion.Farbfeld
