import ImageRegion.Word

namespace ImageRegion

inductive Breach
  | divisionByZero
  | overflow (cause : Word.Overflow)
  | capacityOverflow
  | rowOutOfBounds (row height : Nat)
  | viewWithoutWidth (width height : Nat)
  deriving DecidableEq

def Breach.message : Breach → String
  | .divisionByZero => "attempt to divide by zero"
  | .overflow .sum => "attempt to add with overflow"
  | .overflow .product => "attempt to multiply with overflow"
  | .capacityOverflow => "capacity overflow"
  | .rowOutOfBounds row height => s!"row {row} out of bounds (height: {height})"
  | .viewWithoutWidth width height =>
    s!"Invalid ImgRef params. Got stride=0 for {width}×{height}; len=0 (needed 0)"

end ImageRegion
