import ImageRegion.Session.State

namespace ImageRegion

namespace Brake

def stop (isRaised : Bool) : Brake → Stop
  | .none => .never
  | .after checks reason => .after checks reason
  | .token _ raisedAt => fun k =>
    if isRaised || raisedAt.any (· ≤ k) then some .cancelled else Option.none

def raises (checks : Nat) : Brake → Bool
  | .token _ (some k) => k < checks
  | _ => false

end Brake

namespace Session

def flag? (s : Session) : Brake → Option (Option Flag)
  | .token name _ => (s.tokens.get? name).map some
  | _ => some none

def account? (s : Session) : Subject → Option Nat
  | .viewer name => do (← s.viewers.get? name).image.allocator.account
  | .entry shelf grip => do
    (← (← s.catalogue? shelf).get? (← s.handle? grip)).image.allocator.account

def decodeFresh (s : Session) (subject : Subject) (rect : Rect) (o : Options) (stop : Stop) :
    Option (Decoding (Bitmap × Region) × Session) := do
  match subject with
  | .viewer name =>
    let (decoding, v) := (← s.viewers.get? name).decode rect o stop
    some (decoding, { s with viewers := s.viewers.keep name v })
  | .entry shelf grip =>
    let (decoding, c) := (← s.catalogue? shelf).decode (← s.handle? grip) rect o stop
    some (decoding, s.keepCatalogue c shelf)

def decodeInto (s : Session) (subject : Subject) (rect : Rect) (o : Options) (target : Bitmap)
    (stop : Stop) : Option (Decoding Region × Bitmap × Session) := do
  match subject with
  | .viewer name =>
    let (decoding, target, v) := (← s.viewers.get? name).decodeInto rect o target stop
    some (decoding, target, { s with viewers := s.viewers.keep name v })
  | .entry shelf grip =>
    let (decoding, target, c) :=
      (← s.catalogue? shelf).decodeInto (← s.handle? grip) rect o target stop
    some (decoding, target, s.keepCatalogue c shelf)

def regionOf : Except Failure (Outcome (Bitmap × Region)) → Except Failure (Outcome Region)
  | .ok outcome => .ok (outcome.map (·.2))
  | .error failure => .error failure

def bitmapOf : Except Failure (Outcome (Bitmap × Region)) → Option Bitmap
  | .ok (.decoded (bitmap, _)) => some bitmap
  | _ => none

def perform (s : Session) (job : Job) (stop : Stop) : Option (Report × List Event × Session) := do
  let account := s.account? job.subject
  match job.target with
  | none =>
    let (d, s) ← s.decodeFresh job.subject job.rect job.options stop
    let s := s.charge account d.requests
    let fresh := bitmapOf d.result
    let s :=
      match job.keepAs, fresh with
      | some name, some bitmap => { s with bitmaps := s.bitmaps.keep name bitmap }
      | _, _ => s
    some (⟨regionOf d.result, d.checks, none, fresh⟩, d.events, s)
  | some name =>
    let (d, target, s) ←
      s.decodeInto job.subject job.rect job.options (← s.bitmaps.get? name) stop
    let s := { s.charge account d.requests with bitmaps := s.bitmaps.keep name target }
    some (⟨d.result, d.checks, some target, none⟩, d.events, s)

def decode (s : Session) (job : Job) : Option (Report × List Event × Session) := do
  let flag ← s.flag? job.brake
  let stop := job.brake.stop (flag.any (·.isRaised))
  let (report, events, s) ← s.perform job stop
  match flag with
  | some flag =>
    some (report, events, if job.brake.raises report.checks then s.raise flag.number else s)
  | none => some (report, events, s)

end Session

end ImageRegion
