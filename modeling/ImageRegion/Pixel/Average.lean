import ImageRegion.Pixel.Format

/-!
The average of a block of pixels, each weighted by its opacity, so that transparent pixels do not
tint the result. The sums are words of 64 bits, which hold the sums over any block of up to 2⁴⁸
pixels (`Image.SumsExact`). Past that they wrap around here, where a build with overflow checks
would end the call.
-/

namespace ImageRegion

structure Tally where
  red : UInt64
  green : UInt64
  blue : UInt64
  alpha : UInt64
  deriving DecidableEq

namespace Tally

def zero : Tally := ⟨0, 0, 0, 0⟩

instance : Inhabited Tally := ⟨zero⟩

def add (t : Tally) (p : Pixel) : Tally :=
  let a := p.alpha.toUInt64
  ⟨t.red + p.red.toUInt64 * a, t.green + p.green.toUInt64 * a, t.blue + p.blue.toUInt64 * a,
    t.alpha + a⟩

def round (sum count : UInt64) : UInt8 := ((sum + count / 2) / count).toUInt8

def average (t : Tally) (count : UInt64) : Pixel :=
  if t.alpha = 0 then .clear
  else ⟨round t.red t.alpha, round t.green t.alpha, round t.blue t.alpha, round t.alpha count⟩

end Tally

end ImageRegion
