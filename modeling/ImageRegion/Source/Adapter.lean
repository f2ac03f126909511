import ImageRegion.Allocator
import ImageRegion.Source.Stream

/-!
The ways to a stream. Bytes, drained readers and assets end up in memory; descriptors and seekable
readers are read where they are.
-/

namespace ImageRegion

/-- A file that is open in two hands: a stream's, and its owner's with an offset of its own. -/
structure File where
  number : Nat
  content : Content
  ownerOffset : Nat
  isReadable : Bool
  /-- How many bytes one read at a position moves, when it is asked for so many. -/
  portion : Nat → Nat → Nat

namespace Stream

def whole : Nat → Nat → Nat := fun _ count => count

/-- The most bytes that one read of a file moves. -/
def longestRead : Nat := 0x7ffff000

def upToLongest : Nat → Nat → Nat := fun _ count => min count longestRead

def ofContent (content : Content) : Stream :=
  ⟨.memory, content, content.size, 0, whole, none, .positionOutOfRange⟩

def ofBytes (bytes : Array UInt8) : Stream := ofContent (.ofBytes bytes)

def ofCopy (medium : Content) (bytes : Array UInt8) : Stream :=
  ofContent { Content.ofBytes bytes with picture := medium.picture }

def ofReader (reader : Stream) : Except Error Stream :=
  match reader.readToEnd with
  | (.error fault, _) => .error (.sourceUnreadable fault)
  | (.ok bytes, _) => .ok (ofCopy reader.content bytes)

def ofAsset (asset : Stream) (declared : Nat) : Except Error Stream :=
  if Allocator.addressable ≤ declared then .error (.outOfMemory declared)
  else
    match asset.fill declared #[] with
    | (_, some fault, _) => .error (.sourceUnreadable fault)
    | (bytes, none, _) =>
      if bytes.size < declared then .error (.sourceUnreadable (.shortAsset bytes.size declared))
      else .ok (ofCopy asset.content bytes)

/-- A file is read by position: its length is taken once, its owner's offset never moves, and what
one read delivers is up to the system. -/
def ofFile (file : File) : Stream :=
  ⟨.descriptor file.number file.isReadable, file.content, file.content.size, 0, file.portion, none,
    .positionOutsideFile⟩

def measured (reader : Stream) : Except Error Stream :=
  match reader.seek (.fromEnd 0) with
  | (.error fault, _) => .error (.sourceUnreadable fault)
  | (.ok length, reader) =>
    match reader.seek (.start 0) with
    | (.error fault, _) => .error (.sourceUnreadable fault)
    | (.ok _, reader) => .ok { reader with length }

def follow (s : Stream) (file : File) : Stream :=
  match s.medium with
  | .descriptor number _ => if number = file.number then { s with content := file.content } else s
  | _ => s

end Stream

end ImageRegion
