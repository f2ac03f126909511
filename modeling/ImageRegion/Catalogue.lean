import ImageRegion.Image.Opening

/-!
Catalogues: opened images under handles, for callers who can only hold a number. Handles count up
from one and are not given twice; a handle is good until it is released. Each image is behind a lock
of its own. A call that unwinds with the lock in its hands marks it, which keeps nobody out: between
calls an image is always good.
-/

namespace ImageRegion

structure Locked where
  viewer : Viewer
  isMarked : Bool

namespace Locked

/-- Takes the lock. A marked one answers with an error that has the viewer in it. -/
def lock (l : Locked) : Except Viewer Viewer :=
  if l.isMarked then .error l.viewer else .ok l.viewer

def relock (l : Locked) : Viewer :=
  match l.lock with
  | .ok v => v
  | .error v => v

theorem relock_eq (l : Locked) : l.relock = l.viewer := by
  unfold relock lock
  cases l.isMarked <;> rfl

end Locked

structure Catalogue where
  next : Nat
  entries : List (Handle × Locked)

namespace Catalogue

def empty : Catalogue := ⟨1, []⟩

def size (c : Catalogue) : Nat := c.entries.length

def get? (c : Catalogue) (h : Handle) : Option Viewer := (c.entries.lookup h).map (·.relock)

def find (c : Catalogue) (h : Handle) : Except Error Viewer :=
  match c.get? h with
  | some v => .ok v
  | none => .error (.unknownHandle h)

def remove (h : Handle) (entries : List (Handle × Locked)) : List (Handle × Locked) :=
  entries.filter fun entry => entry.1 ≠ h

def insert (c : Catalogue) (v : Viewer) : Handle × Catalogue :=
  (⟨c.next⟩, ⟨Word.wrap64 (c.next + 1), (⟨c.next⟩, ⟨v, false⟩) :: remove ⟨c.next⟩ c.entries⟩)

def update (c : Catalogue) (h : Handle) (v : Viewer) (unwound : Bool) : Catalogue :=
  { c with
    entries := c.entries.map fun (key, locked) =>
      if key = h then (h, ⟨v, locked.isMarked || unwound⟩) else (key, locked) }

def release (c : Catalogue) (h : Handle) : Except Error (Viewer × Catalogue) :=
  match c.get? h with
  | some v => .ok (v, { c with entries := remove h c.entries })
  | none => .error (.unknownHandle h)

def width (c : Catalogue) (h : Handle) : Except Error Nat := do return (← c.find h).width

def height (c : Catalogue) (h : Handle) : Except Error Nat := do return (← c.find h).height

def decode (c : Catalogue) (h : Handle) (rect : Rect) (o : Options) (stop : Stop) :
    Decoding (Bitmap × Region) × Catalogue :=
  match c.get? h with
  | none => (⟨.error (.error (.unknownHandle h)), 0, [], []⟩, c)
  | some v =>
    let (decoding, v) := v.decode rect o stop
    (decoding, c.update h v decoding.isUnwound)

def decodeInto (c : Catalogue) (h : Handle) (rect : Rect) (o : Options) (target : Bitmap)
    (stop : Stop) : Decoding Region × Bitmap × Catalogue :=
  match c.get? h with
  | none => (⟨.error (.error (.unknownHandle h)), 0, [], []⟩, target, c)
  | some v =>
    let (decoding, target, v) := v.decodeInto rect o target stop
    (decoding, target, c.update h v decoding.isUnwound)

def follow (c : Catalogue) (file : File) : Catalogue :=
  { c with entries := c.entries.map fun (h, l) => (h, ⟨l.viewer.follow file, l.isMarked⟩) }

def describe (c : Catalogue) : String :=
  Description.record "HandleTable" [("open", toString c.size)] false

end Catalogue

end ImageRegion
