import ImageRegion.Encoding
import ImageRegion.Pixel.Format
import ImageRegion.Source.Fault

/-!
Contents: the bytes a medium holds, as a function of their offset. No byte is looked at before it
is read, so a content may be as long as offsets reach.
-/

namespace ImageRegion

inductive Finding
  | unreadable
  | sized (width height : Nat)
  | whole (width height : Nat) (native : PixelFormat) (pixels : Array Pixel)

def Finding.sizeOnly : Finding → Finding
  | .whole width height _ _ => .sized width height
  | finding => finding

/-- A picture in a compressed encoding, and how far its decoder has to read. -/
structure Picture where
  encoding : Encoding
  finding : Finding
  sizeReach : Nat
  pixelReach : Nat
  /-- The decoder reads to the end before it looks at anything. -/
  readsAhead : Bool

def Picture.upTo (p : Picture) (extent : Nat) : Finding :=
  if extent < p.sizeReach then .unreadable
  else if extent < p.pixelReach then p.finding.sizeOnly
  else p.finding

structure Content where
  size : Nat
  byteAt : Nat → UInt8
  /-- What a read that starts at an offset fails with. -/
  fault : Nat → Option Fault
  picture : Option Picture

namespace Content

def ofBytes (bytes : Array UInt8) : Content :=
  ⟨bytes.size, fun i => bytes.getD i 0, fun _ => none, none⟩

def Readable (c : Content) (i : Nat) : Prop := i < c.size ∧ c.fault i = none

instance (c : Content) (i : Nat) : Decidable (c.Readable i) :=
  inferInstanceAs (Decidable (_ ∧ _))

/-- How far `count` bytes from `start` on can be read without a break. -/
def reach (c : Content) (start : Nat) : Nat → Nat
  | 0 => start
  | count + 1 => if c.Readable start then c.reach (start + 1) count else start

def slice (c : Content) (start count : Nat) : Array UInt8 :=
  Array.ofFn fun i : Fin count => c.byteAt (start + i)

/-- One read of at most `count` bytes. It fails if it starts at a fault, and else ends before the
next one. Past the end it gives none. -/
def read (c : Content) (start count : Nat) : Except Fault (Array UInt8) :=
  match if count = 0 then none else c.fault start with
  | some fault => .error fault
  | none => .ok (c.slice start (c.reach start count - start))

def upTo (c : Content) (size : Nat) : Content := { c with size := min size c.size }

def failsAtEnd (c : Content) : Bool := (c.fault (c.reach 0 c.size)).isSome

def decoded (c : Content) (encoding : Encoding) : Finding :=
  match c.picture with
  | none => .unreadable
  | some p =>
    if p.encoding ≠ encoding ∨ (p.readsAhead && c.failsAtEnd) then .unreadable
    else p.upTo (c.reach 0 (max p.sizeReach p.pixelReach))

theorem size_slice (c : Content) (start count : Nat) : (c.slice start count).size = count := by
  simp [slice]

def truncate (c : Content) (size : Nat) : Content :=
  { c with size, byteAt := fun i => if i < c.size then c.byteAt i else 0, picture := none }

def write (c : Content) (start : Nat) (bytes : Array UInt8) : Content :=
  { c with
    size := if bytes.size = 0 then c.size else max c.size (start + bytes.size)
    byteAt := fun i =>
      if start ≤ i ∧ i < start + bytes.size then bytes.getD (i - start) 0
      else if i < c.size then c.byteAt i else 0
    picture := none }

end Content

end ImageRegion
