import ImageRegion.Word

namespace ImageRegion

structure Span where
  first : Nat
  stop : Nat
  deriving DecidableEq

namespace Span

open Word

def length (s : Span) : Nat := s.stop - s.first

def block (origin limit sample i : Nat) : Span :=
  let first := origin + i * sample
  ⟨first, min (cap32 (first + sample)) limit⟩

/-- The middle of a span of length `sample`, or the last position of a shorter one. -/
def centre (sample : Nat) (s : Span) : Nat := min (cap32 (s.first + sample / 2)) (s.stop - 1)

theorem block_eq {origin limit sample i : Nat} (hl : limit < 0x100000000) :
    block origin limit sample i =
      ⟨origin + i * sample, min (origin + i * sample + sample) limit⟩ := by
  simp only [block, min_cap32 hl]

theorem centre_mem {sample : Nat} {s : Span} (h : s.first < s.stop) (hs : s.stop ≤ 0x100000000) :
    s.first ≤ centre sample s ∧ centre sample s < s.stop := by
  simp only [centre, cap32]
  omega

end Span

end ImageRegion
