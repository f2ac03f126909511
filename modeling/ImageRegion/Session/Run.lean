import ImageRegion.Session.Decoding
import ImageRegion.Session.Opening

namespace ImageRegion

structure Reply where
  answer : Answer
  events : List Event

namespace Session

def ofFailure : Except Failure Answer → Answer
  | .ok answer => answer
  | .error failure => .failed failure

def ofBreach : Except Breach Answer → Answer
  | .ok answer => answer
  | .error breach => .failed (.breached breach)

def silent (answer : Answer) (s : Session) : Reply × Session := (⟨answer, []⟩, s)

def withNamed {α : Type} (s : Session) (value : Option α) (f : α → Reply × Session) :
    Reply × Session :=
  match value with
  | none => silent .missing s
  | some a => f a

def withBitmap (s : Session) (name : String) (f : Bitmap → Reply × Session) : Reply × Session :=
  s.withNamed (s.bitmaps.get? name) f

def changeBitmap (s : Session) (name : String) (change : Bitmap → Bitmap)
    (answer : Bitmap → Answer) : Reply × Session :=
  s.withBitmap name fun b =>
    silent (answer (change b)) { s with bitmaps := s.bitmaps.keep name (change b) }

def changeFile (s : Session) (name : String) (change : Content → Content) : Reply × Session :=
  s.withNamed (s.files.get? name) fun f =>
    silent .done (s.keepFile name { f with content := change f.content })

def askCatalogue (s : Session) (shelf : Shelf) (grip : Grip)
    (ask : Catalogue → Handle → Except Error Nat) : Reply × Session :=
  let c := s.catalogue shelf
  let s := s.keepCatalogue c shelf
  s.withNamed (s.handle? grip) fun h => silent (ofFailure (Failure.raise ((ask c h).map .number))) s

def step (s : Session) : Step → Reply × Session
  | .openImage name order =>
    let (attempt, s) := s.openImage name order Attempt.plain
    (⟨ofFailure (attempt.result.map .opened), attempt.events⟩, s)
  | .openInStages name order width height =>
    let (attempt, s) := s.openImage name order (Attempt.inStages width height)
    (⟨.staged attempt.stages attempt.result, attempt.events⟩, s)
  | .describe name => s.withNamed (s.viewers.get? name) fun v => silent (.described v) s
  | .close name =>
    s.withNamed (s.viewers.get? name) fun v =>
      (⟨.done, [v.closing]⟩, (s.dropViewer name).release v.stream)
  | .decode job =>
    s.withNamed (s.decode job) fun (report, events, s) => (⟨.decoded report, events⟩, s)
  | .makeToken name =>
    silent .done
      { s with tokens := s.tokens.keep name ⟨s.unused, false⟩, unused := s.unused + 1 }
  | .cloneToken name source =>
    s.withNamed (s.tokens.get? source) fun flag =>
      silent .done { s with tokens := s.tokens.keep name flag }
  | .raiseToken name =>
    s.withNamed (s.tokens.get? name) fun flag => silent .done (s.raise flag.number)
  | .readToken name =>
    s.withNamed (s.tokens.get? name) fun flag => silent (.token flag.isRaised) s
  | .readAccount name => s.withNamed (s.accounts.get? name) fun a => silent (.account a) s
  | .countReleased => silent (.number s.releasedReaders) s
  | .ownerOffset name =>
    s.withNamed (s.files.get? name) fun f => silent (.number f.ownerOffset) s
  | .truncateFile name size => s.changeFile name (·.truncate size)
  | .writeFile name start bytes => s.changeFile name (·.write start bytes)
  | .makeBitmap name width height format =>
    match Bitmap.blank width height format with
    | .error breach => silent (.failed (.breached breach)) s
    | .ok b => silent (.bitmap b) { s with bitmaps := s.bitmaps.keep name b }
  | .readBitmap name => s.withBitmap name fun b => silent (.bitmap b) s
  | .writeBitmap name start bytes => s.changeBitmap name (·.write start bytes) .bitmap
  | .readRow name row =>
    s.withBitmap name fun b => silent (ofBreach ((b.row? row).map .row)) s
  | .touchBitmap name => s.changeBitmap name (·.touch) fun b => .number b.generation.toNat
  | .viewBitmap name =>
    s.withBitmap name fun b =>
      match b.view? with
      | none => silent (.view none) s
      | some view => silent (ofBreach (view.map fun v => .view (some v))) s
  | .expandBitmap name =>
    s.withBitmap name fun b => silent (ofBreach (b.expand.map fun v => .view (some v))) s
  | .dismantleBitmap name =>
    s.withBitmap name fun b =>
      silent (.storage b.storage) { s with bitmaps := s.bitmaps.erase name }
  | .openEntry shelf keepAs order =>
    let (attempt, s) :=
      (s.keepCatalogue (s.catalogue shelf) shelf).attempt none order Attempt.plain
    match attempt.result with
    | .error failure => (⟨.failed failure, attempt.events⟩, s)
    | .ok viewer =>
      let (handle, events, s) := s.insertEntry shelf keepAs viewer
      (⟨.handle handle, attempt.events ++ events⟩, s)
  | .insertEntry shelf keepAs name =>
    let s := s.keepCatalogue (s.catalogue shelf) shelf
    s.withNamed (s.viewers.get? name) fun v =>
      let (handle, events, s) := (s.dropViewer name).insertEntry shelf keepAs v
      (⟨.handle handle, events⟩, s)
  | .entryWidth shelf grip => s.askCatalogue shelf grip Catalogue.width
  | .entryHeight shelf grip => s.askCatalogue shelf grip Catalogue.height
  | .releaseEntry shelf grip =>
    let s := s.keepCatalogue (s.catalogue shelf) shelf
    s.withNamed (s.handle? grip) fun h =>
      match s.releaseEntry shelf h with
      | .error error => silent (.failed (.error error)) s
      | .ok (events, s) => (⟨.done, events⟩, s)
  | .countEntries shelf =>
    let c := s.catalogue shelf
    silent (.catalogue c) (s.keepCatalogue c shelf)

def run (s : Session) : List Step → List Reply × Session
  | [] => ([], s)
  | step :: steps =>
    let (reply, s) := s.step step
    let (replies, s) := s.run steps
    (reply :: replies, s)

end Session

end ImageRegion
