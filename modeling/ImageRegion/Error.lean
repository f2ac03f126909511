import ImageRegion.Breach
import ImageRegion.Encoding
import ImageRegion.Geometry.Rect
import ImageRegion.Request.Limits
import ImageRegion.Request.Stop
import ImageRegion.Source.Fault

namespace ImageRegion

structure Handle where
  raw : Nat
  deriving DecidableEq

def Handle.text (h : Handle) : String := s!"#{h.raw}"

inductive Flaw
  | missingMagic
  | notBinary (kind : UInt8)
  | missingSeparator
  | truncatedHeader
  | valueOutOfRange
  | zeroDimension
  | maxvalOutOfRange (maxval : Nat)
  | truncatedData (length needed : Nat)
  | unreadable (fault : Fault)
  | refused
  | reported (text : String)
  deriving DecidableEq

def Flaw.message (encoding : Encoding) : Flaw → String
  | .missingMagic => s!"missing {encoding.name} magic"
  | .notBinary kind =>
    s!"P{Char.ofNat kind.toNat} is not a binary graymap or pixmap"
  | .missingSeparator => "expected whitespace between header fields"
  | .truncatedHeader => "truncated header"
  | .valueOutOfRange => "header value out of range"
  | .zeroDimension => "zero dimension"
  | .maxvalOutOfRange maxval => s!"maxval {maxval} out of range"
  | .truncatedData length needed => s!"pixel data truncated: {length} of {needed} bytes"
  | .unreadable fault => fault.message
  | .refused => ""
  | .reported text => text

inductive RowFault
  | pnmRow (row : Nat) (fault : Fault)
  | farbfeldRow (row : Nat) (fault : Fault)
  | outsideTiles (row column : Nat)
  | reported (text : String)
  deriving DecidableEq

def RowFault.message : RowFault → String
  | .pnmRow row fault => s!"pnm row {row}: {fault.message}"
  | .farbfeldRow row fault => s!"farbfeld row {row}: {fault.message}"
  | .outsideTiles row column => s!"row {row} from column {column} is outside the tiled image"
  | .reported text => text

inductive RowFailure
  | fault (fault : RowFault)
  | breach (breach : Breach)
  deriving DecidableEq

inductive Error
  | sourceUnreadable (fault : Fault)
  | formatUnrecognized
  | indexBuildFailed (encoding : Encoding) (flaw : Flaw)
  | decodeFailed (fault : RowFault)
  | invalidSampleSize
  | emptyRegion (rect : Rect)
  | reuseBufferTooSmall (required capacity : Nat)
  | outOfMemory (requested : Nat)
  | limitExceeded (excess : Excess)
  | cancelled (reason : StopReason)
  | unknownHandle (handle : Handle)
  deriving DecidableEq

namespace Error

def message : Error → String
  | .sourceUnreadable fault => s!"source unreadable: {fault.message}"
  | .formatUnrecognized => "image format not supported"
  | .indexBuildFailed encoding flaw =>
    s!"image failed to decode using {encoding.name} decoder: {flaw.message encoding}"
  | .decodeFailed fault => s!"region decode failed: {fault.message}"
  | .invalidSampleSize => "sample size must be at least 1"
  | .emptyRegion rect => s!"region {rect.text} does not intersect the image"
  | .reuseBufferTooSmall required capacity =>
    s!"reused bitmap holds {capacity} bytes, region needs {required}"
  | .outOfMemory requested => s!"pixel allocator failed to provide {requested} bytes"
  | .limitExceeded excess => s!"limit exceeded: {excess.message}"
  | .cancelled reason => s!"stopped: {reason.message}"
  | .unknownHandle handle => s!"unknown region decoder handle {handle.text}"

def isOpenFailure : Error → Bool
  | .sourceUnreadable _ | .formatUnrecognized | .indexBuildFailed _ _ => true
  | _ => false

def cause? : Error → Option String
  | .sourceUnreadable fault => some fault.message
  | .limitExceeded excess => some excess.message
  | _ => none

end Error

/-- Why a call came to no result: an error to report, or an end that its caller did not provide
for. -/
inductive Failure
  | error (error : Error)
  | breached (breach : Breach)
  | unwound (message : String)
  deriving DecidableEq

namespace Failure

def raise {α : Type} (r : Except Error α) : Except Failure α := r.mapError .error

def fitting {α : Type} (r : Except Word.Overflow α) : Except Failure α :=
  r.mapError fun cause => .breached (.overflow cause)

end Failure

def Outcome.toExcept {α : Type} : Outcome α → Except Error α
  | .decoded value => .ok value
  | .cancelled reason => .error (.cancelled reason)

def Limits.raise {α : Type} (r : Except Excess α) : Except Error α := r.mapError .limitExceeded

end ImageRegion
