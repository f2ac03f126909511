import ImageRegion.Error

/-!
The header of a binary graymap or pixmap: a magic, then width, height and greatest sample value in
decimal, each after separators, then one blank. A separator is a blank or a comment, which begins
with a number sign and reaches to the end of its line.
-/

namespace ImageRegion.Netpbm

structure Header where
  channels : Nat
  width : Nat
  height : Nat
  maxval : Nat
  dataOffset : Nat
  deriving DecidableEq

def maxHeaderBytes : Nat := 4096

def isBlank (b : UInt8) : Bool := b == 0x20 || b == 0x09 || b == 0x0A || b == 0x0C || b == 0x0D

def endsLine (b : UInt8) : Bool := b == 0x0A || b == 0x0D

def isDigit (b : UInt8) : Bool := 0x30 ≤ b && b ≤ 0x39

/-- Drops separators; the flag says that a comment is under way. The byte that ends its line is a
blank and goes with it. -/
def skipSeparators : Bool → List UInt8 → List UInt8
  | _, [] => []
  | true, b :: bytes => skipSeparators (!endsLine b) bytes
  | false, b :: bytes =>
    if b = 0x23 then skipSeparators true bytes
    else if isBlank b then skipSeparators false bytes
    else b :: bytes

def decimal (digits : List UInt8) : Nat :=
  digits.foldl (fun n d => n * 10 + (d.toNat - 0x30)) 0

def field (bytes : List UInt8) : Except Flaw (Nat × List UInt8) :=
  let rest := skipSeparators false bytes
  let digits := rest.takeWhile isDigit
  if rest.length = bytes.length then .error .missingSeparator
  else if digits.isEmpty then .error .truncatedHeader
  else if 0x100000000 ≤ decimal digits then .error .valueOutOfRange
  else .ok (decimal digits, rest.dropWhile isDigit)

def magic : List UInt8 → Except Flaw (Nat × List UInt8)
  | p :: kind :: rest =>
    if p ≠ 0x50 then .error .missingMagic
    else if kind = 0x35 then .ok (1, rest)
    else if kind = 0x36 then .ok (3, rest)
    else if 0x31 ≤ kind ∧ kind ≤ 0x37 then .error (.notBinary kind)
    else .error .missingMagic
  | _ => .error .missingMagic

def finalBlank : List UInt8 → Except Flaw (List UInt8)
  | b :: rest => if isBlank b then .ok rest else .error .truncatedHeader
  | [] => .error .truncatedHeader

namespace Header

def validate (h : Header) : Except Flaw Header :=
  if h.width = 0 ∨ h.height = 0 then .error .zeroDimension
  else if h.maxval = 0 ∨ 65535 < h.maxval then .error (.maxvalOutOfRange h.maxval)
  else .ok h

def parse (bytes : List UInt8) : Except Flaw Header := do
  let (channels, rest) ← magic bytes
  let (width, rest) ← field rest
  let (height, rest) ← field rest
  let (maxval, rest) ← field rest
  let rest ← finalBlank rest
  validate ⟨channels, width, height, maxval, bytes.length - rest.length⟩

end Header

end ImageRegion.Netpbm
