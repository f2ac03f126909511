namespace ImageRegion

inductive Fault.Kind
  | other
  | unexpectedEnd
  | invalidInput
  | uncategorized
  deriving DecidableEq

inductive Fault
  | endOfData
  | shortAsset (length declared : Nat)
  | positionOutOfRange
  | positionOutsideFile
  | badDescriptor
  | invalidArgument
  /-- The medium failed on its own terms. -/
  | reported (text : String)
  deriving DecidableEq

namespace Fault

def kind : Fault → Kind
  | .endOfData | .shortAsset _ _ => .unexpectedEnd
  | .positionOutOfRange | .positionOutsideFile | .invalidArgument => .invalidInput
  | .badDescriptor => .uncategorized
  | .reported _ => .other

def message : Fault → String
  | .endOfData => "failed to fill whole buffer"
  | .shortAsset length declared => s!"short asset read: {length} of {declared} bytes"
  | .positionOutOfRange => "invalid seek to a negative or overflowing position"
  | .positionOutsideFile => "seek before start of file"
  | .badDescriptor => "Bad file descriptor (os error 9)"
  | .invalidArgument => "Invalid argument (os error 22)"
  | .reported text => text

end Fault

end ImageRegion
