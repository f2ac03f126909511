import ImageRegion.Source.Stream

namespace ImageRegion

structure Feed where
  stream : Stream
  buffer : Array UInt8

namespace Feed

def ofStream (s : Stream) : Feed := ⟨s, #[]⟩

def resize (buffer : Array UInt8) (size : Nat) : Array UInt8 :=
  buffer.extract 0 size ++ .replicate (size - buffer.size) 0

/-- Reads `count` bytes from an offset on over the buffer. A read that fails leaves what it got. -/
def load (f : Feed) (offset count : Nat) : Except Fault Unit × Feed :=
  let buffer := resize f.buffer count
  match f.stream.seek (.start offset) with
  | (.error fault, s) => (.error fault, ⟨s, buffer⟩)
  | (.ok _, s) =>
    let (got, fault?, s) := s.fill count #[]
    let f : Feed := ⟨s, got ++ buffer.extract got.size count⟩
    match fault? with
    | some fault => (.error fault, f)
    | none => (if got.size < count then .error .endOfData else .ok (), f)

end Feed

end ImageRegion
