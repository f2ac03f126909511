import ImageRegion.Description
import ImageRegion.Source.Content

/-!
Streams: a content with a cursor. A read may deliver fewer bytes than it was asked for, so whoever
needs them all reads until the count is full, the data ends or a read fails.
-/

namespace ImageRegion

inductive Medium
  | memory
  | descriptor (file : Nat) (isReadable : Bool)
  | reader
  deriving DecidableEq

structure Stream where
  medium : Medium
  content : Content
  /-- The length that seeks from the end count from. -/
  length : Nat
  position : Nat
  /-- How many bytes one read delivers at a position, when it is asked for so many. -/
  portion : Nat → Nat → Nat
  seekFault : Option Fault
  refusal : Fault

inductive Target
  | start (offset : Nat)
  | fromEnd (delta : Int)
  | fromHere (delta : Int)
  deriving DecidableEq

namespace Stream

/-- Files have no position from here on. -/
def fileLimit : Nat := 0x8000000000000000

def wanted (s : Stream) (count : Nat) : Nat :=
  if count = 0 then 0 else max 1 (min count (s.portion s.position count))

/-- Why the system refuses to read `count` bytes of a file; it looks at the position first. -/
def readRefusal? (s : Stream) (count : Nat) : Option Fault :=
  match s.medium with
  | .descriptor _ isReadable =>
    if fileLimit ≤ s.position then some .invalidArgument
    else if !isReadable then some .badDescriptor
    else if fileLimit ≤ s.position + count then some .invalidArgument
    else none
  | _ => none

def read (s : Stream) (count : Nat) : Except Fault (Array UInt8) × Stream :=
  match s.readRefusal? count with
  | some fault => (.error fault, s)
  | none =>
    match s.content.read s.position (s.wanted count) with
    | .error fault => (.error fault, s)
    | .ok bytes => (.ok bytes, { s with position := s.position + bytes.size })

theorem wanted_le (s : Stream) (count : Nat) : s.wanted count ≤ count := by
  unfold wanted
  split <;> omega

def fill (s : Stream) (count : Nat) (got : Array UInt8) :
    Array UInt8 × Option Fault × Stream :=
  if _hc : count = 0 then (got, none, s)
  else
    match s.read count with
    | (.error fault, s) => (got, some fault, s)
    | (.ok bytes, s) =>
      if _hb : bytes.size = 0 then (got, none, s)
      else fill s (count - bytes.size) (got ++ bytes)
termination_by count
decreasing_by omega

def readExact (s : Stream) (count : Nat) : Except Fault (Array UInt8) × Stream :=
  match s.fill count #[] with
  | (_, some fault, s) => (.error fault, s)
  | (bytes, none, s) => (if bytes.size < count then .error .endOfData else .ok bytes, s)

def remaining (s : Stream) : Nat :=
  s.content.reach s.position (s.content.size - s.position) - s.position

/-- How many bytes past the end a read to the end asks for. -/
def lookAhead : Nat := 32

def readToEnd (s : Stream) : Except Fault (Array UInt8) × Stream :=
  match s.fill (s.remaining + lookAhead) #[] with
  | (_, some fault, s) => (.error fault, s)
  | (bytes, none, s) => (.ok bytes, s)

def positionOf (s : Stream) : Target → Int
  | .start offset => offset
  | .fromEnd delta => s.length + delta
  | .fromHere delta => s.position + delta

def seek (s : Stream) (target : Target) : Except Fault Nat × Stream :=
  match s.seekFault with
  | some fault => (.error fault, s)
  | none =>
    let position := s.positionOf target
    if 0 ≤ position ∧ position < 0x10000000000000000 then
      (.ok position.toNat, { s with position := position.toNat })
    else (.error s.refusal, s)

def readExactAt (s : Stream) (offset count : Nat) : Except Fault (Array UInt8) × Stream :=
  match s.seek (.start offset) with
  | (.error fault, s) => (.error fault, s)
  | (.ok _, s) => s.readExact count

def describe (s : Stream) : String :=
  Description.record "SourceStream" [("len", toString s.length)] false

end Stream

end ImageRegion
