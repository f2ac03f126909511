import ImageRegion.Breach

namespace ImageRegion

structure Rect where
  left : Int
  top : Int
  right : Int
  bottom : Int
  deriving DecidableEq

namespace Rect

def maxCoord : Int := 0x7FFFFFFF

def minCoord : Int := -0x80000000

def clampCoord (c : Int) : Int := max minCoord (min c maxCoord)

def zero : Rect := ⟨0, 0, 0, 0⟩

def ofCorner (x y width height : Int) : Rect :=
  ⟨x, y, clampCoord (x + width), clampCoord (y + height)⟩

def ofSize (width height : Nat) : Rect :=
  ⟨0, 0, min width maxCoord, min height maxCoord⟩

def width (r : Rect) : Nat := (r.right - r.left).toNat

def height (r : Rect) : Nat := (r.bottom - r.top).toNat

def isEmpty (r : Rect) : Bool := r.right ≤ r.left || r.bottom ≤ r.top

def overlap (r s : Rect) : Rect :=
  ⟨max r.left s.left, max r.top s.top, min r.right s.right, min r.bottom s.bottom⟩

def intersect? (r s : Rect) : Option Rect :=
  if (r.overlap s).isEmpty then none else some (r.overlap s)

def sampledSize (r : Rect) (sample : Nat) : Nat × Nat :=
  (Word.ceilDiv r.width sample, Word.ceilDiv r.height sample)

def sampledSize? (r : Rect) (sample : Nat) : Except Breach (Nat × Nat) :=
  if sample = 0 then .error .divisionByZero else .ok (r.sampledSize sample)

def text (r : Rect) : String := s!"({r.left}, {r.top})-({r.right}, {r.bottom})"

def Contains (r : Rect) (x y : Int) : Prop :=
  r.left ≤ x ∧ x < r.right ∧ r.top ≤ y ∧ y < r.bottom

instance (r : Rect) (x y : Int) : Decidable (r.Contains x y) :=
  inferInstanceAs (Decidable (_ ∧ _))

theorem contains_overlap (r s : Rect) (x y : Int) :
    (r.overlap s).Contains x y ↔ r.Contains x y ∧ s.Contains x y := by
  simp only [Contains, overlap]
  omega

theorem isEmpty_eq_false (r : Rect) :
    r.isEmpty = false ↔ r.left < r.right ∧ r.top < r.bottom := by
  simp only [isEmpty, Bool.or_eq_false_iff, decide_eq_false_iff_not]
  omega

end Rect

end ImageRegion
