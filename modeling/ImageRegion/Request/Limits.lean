import ImageRegion.Word

namespace ImageRegion

inductive Limit
  | sourceBytes
  | width
  | height
  | pixels
  | indexBytes
  | regionBytes
  deriving DecidableEq

namespace Limit

def subject : Limit → String
  | .sourceBytes => "source"
  | .width => "image width"
  | .height => "image height"
  | .pixels => "image area"
  | .indexBytes => "tile index"
  | .regionBytes => "region output"

def unit : Limit → String
  | .sourceBytes | .indexBytes | .regionBytes => "bytes"
  | .width | .height => "px"
  | .pixels => "pixels"

end Limit

structure Excess where
  limit : Limit
  actual : Nat
  max : Nat
  deriving DecidableEq

def Excess.message (e : Excess) : String :=
  s!"{e.limit.subject} of {e.actual} {e.limit.unit} is over the cap of {e.max}"

structure Limits where
  sourceBytes : Option Nat
  width : Option Nat
  height : Option Nat
  pixels : Option Nat
  indexBytes : Option Nat
  regionBytes : Option Nat
  deriving DecidableEq

namespace Limits

def none : Limits := ⟨.none, .none, .none, .none, .none, .none⟩

def check (limit : Limit) (actual : Nat) : Option Nat → Except Excess Unit
  | .none => .ok ()
  | .some max => if max < actual then .error ⟨limit, actual, max⟩ else .ok ()

def checkSource (l : Limits) (length : Nat) : Except Excess Unit :=
  check .sourceBytes length l.sourceBytes

def checkImage (l : Limits) (width height : Nat) : Except Excess Unit := do
  check .width width l.width
  check .height height l.height
  check .pixels (width * height) l.pixels

def checkIndex (l : Limits) (bytes : Nat) : Except Excess Unit :=
  check .indexBytes bytes l.indexBytes

def checkRegion (l : Limits) (bytes : Nat) : Except Excess Unit :=
  check .regionBytes bytes l.regionBytes

def Admits (cap : Option Nat) (actual : Nat) : Prop := ∀ max ∈ cap, actual ≤ max

theorem check_eq_ok_iff (limit : Limit) (actual : Nat) (cap : Option Nat) :
    check limit actual cap = .ok () ↔ Admits cap actual := by
  cases cap with
  | none => simp [check, Admits]
  | some max => simp [check, Admits]

theorem check_eq_error_iff (limit : Limit) (actual : Nat) (cap : Option Nat) (e : Excess) :
    check limit actual cap = .error e ↔
      ∃ max, cap = .some max ∧ max < actual ∧ e = ⟨limit, actual, max⟩ := by
  cases cap with
  | none => simp [check]
  | some max =>
    by_cases h : max < actual
    · simp [check, h, eq_comm]
    · simp [check, h]

end Limits

end ImageRegion
