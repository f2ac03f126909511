import ImageRegion.Session.State

namespace ImageRegion

structure Attempt where
  result : Except Failure Viewer
  stages : Option Stages
  events : List Event

namespace Attempt

def failed (error : Error) : Attempt := ⟨.error (.error error), none, []⟩

def plain (between : Stream → Stream) (stream : Stream) (config : Config) : Attempt :=
  let (result, events) := Viewer.openChanging between stream config
  ⟨result, none, events⟩

def inStages (width height : Option Nat) (between : Stream → Stream) (stream : Stream)
    (config : Config) : Attempt :=
  match Probe.ofStream stream with
  | (.error error, _) => failed error
  | (.ok probe, stream) =>
    match { probe with allocator := config.allocator }.index (between stream) config with
    | .error failure => ⟨.error failure, some ⟨probe, stream, none⟩, []⟩
    | .ok (image, event) =>
      ⟨.ok ⟨image, width.getD image.width, height.getD image.height⟩,
        some ⟨probe, stream, some image⟩, [event]⟩

end Attempt

namespace Session

def configure (s : Session) (order : Order) : Config × Session :=
  let config := { Config.standard with limits := order.limits }.withTileSize order.tileSize
  match order.account with
  | none => (config, s)
  | some (name, policy) =>
    ({ config with allocator := .bounded s.unused policy },
      { s with accounts := s.accounts.keep name ⟨s.unused, 0, 0⟩, unused := s.unused + 1 })

def supply (s : Session) (name : Option String) (order : Order) : Supply × Session :=
  let supply := order.supply.numbered s.unused
  let s := { s with unused := s.unused + 1 }
  match name, supply.file? with
  | some name, some file => (supply, { s with files := s.files.keep name file })
  | _, _ => (supply, s)

def attempt (s : Session) (name : Option String) (order : Order)
    (way : (Stream → Stream) → Stream → Config → Attempt) : Attempt × Session :=
  let (config, s) := s.configure order
  let (supply, s) := s.supply name order
  let attempt : Attempt :=
    match supply.stream with
    | .error error => .failed error
    | .ok stream => way order.between stream config
  match attempt.result with
  | .error _ => (attempt, s.release supply.handed?)
  | .ok _ => (attempt, s)

def openImage (s : Session) (name : String) (order : Order)
    (way : (Stream → Stream) → Stream → Config → Attempt) : Attempt × Session :=
  let (attempt, s) := s.attempt (some name) order way
  match attempt.result with
  | .error _ => (attempt, s)
  | .ok viewer => (attempt, s.keepViewer name viewer)

/-- An image that was under the new handle before handles started over is let go. -/
def insertEntry (s : Session) (shelf : Shelf) (keepAs : String) (v : Viewer) :
    Handle × List Event × Session :=
  let before := s.catalogue shelf
  let (handle, c) := before.insert v
  (handle, [.handleCreated handle],
    { (s.keepCatalogue c shelf).release ((before.get? handle).map Viewer.stream) with
      handles := s.handles.keep keepAs handle })

def releaseEntry (s : Session) (shelf : Shelf) (handle : Handle) :
    Except Error (List Event × Session) := do
  let (v, c) ← (s.catalogue shelf).release handle
  .ok ([.handleReleased handle], (s.keepCatalogue c shelf).release v.stream)

end Session

end ImageRegion
