namespace ImageRegion

inductive StopReason
  | cancelled
  | timedOut
  deriving DecidableEq

def StopReason.message : StopReason → String
  | .cancelled => "operation cancelled"
  | .timedOut => "operation timed out"

/-- What the check with each number answers; `none` lets the decode go on. -/
abbrev Stop := Nat → Option StopReason

namespace Stop

def never : Stop := fun _ => none

def after (checks : Nat) (reason : StopReason) : Stop :=
  fun k => if k < checks then none else some reason

def always (reason : StopReason) : Stop := fun _ => some reason

end Stop

inductive Outcome (α : Type) where
  | decoded (value : α)
  | cancelled (reason : StopReason)

namespace Outcome

variable {α β : Type}

def isCancelled : Outcome α → Bool
  | .decoded _ => false
  | .cancelled _ => true

def decoded? : Outcome α → Option α
  | .decoded value => some value
  | .cancelled _ => none

def map (f : α → β) : Outcome α → Outcome β
  | .decoded value => .decoded (f value)
  | .cancelled reason => .cancelled reason

end Outcome

end ImageRegion
