import ImageRegion.Session.Names
import ImageRegion.Session.Step

/-!
What a session holds. Everything that outlives a step is here: opened images, bitmaps, files,
tokens, accounts, handles and catalogues under their names, and the streams that were released.
-/

namespace ImageRegion

structure Flag where
  number : Nat
  isRaised : Bool
  deriving DecidableEq

structure Session where
  viewers : Names Viewer
  bitmaps : Names Bitmap
  files : Names File
  tokens : Names Flag
  accounts : Names Account
  handles : Names Handle
  catalogues : Names Catalogue
  shared : Catalogue
  unused : Nat
  released : List Stream

namespace Session

def start : Session :=
  ⟨.empty, .empty, .empty, .empty, .empty, .empty, .empty, .empty, 0, []⟩

def successor (s : Session) : Session := { start with shared := s.shared, unused := s.unused }

def release (s : Session) (stream : Option Stream) : Session :=
  { s with released := stream.toList ++ s.released }

def releasedReaders (s : Session) : Nat := s.released.countP fun t => t.medium = .reader

def keepViewer (s : Session) (name : String) (v : Viewer) : Session :=
  { s.release ((s.viewers.get? name).map Viewer.stream) with viewers := s.viewers.keep name v }

def dropViewer (s : Session) (name : String) : Session :=
  { s with viewers := s.viewers.erase name }

def catalogue? (s : Session) : Shelf → Option Catalogue
  | .shared => some s.shared
  | .named name => s.catalogues.get? name

def catalogue (s : Session) (shelf : Shelf) : Catalogue := (s.catalogue? shelf).getD .empty

def keepCatalogue (s : Session) (c : Catalogue) : Shelf → Session
  | .shared => { s with shared := c }
  | .named name => { s with catalogues := s.catalogues.keep name c }

def handle? (s : Session) : Grip → Option Handle
  | .raw number => some ⟨number⟩
  | .kept name => s.handles.get? name

def keepFile (s : Session) (name : String) (file : File) : Session :=
  { s with
    files := s.files.keep name file
    viewers := s.viewers.map (·.follow file)
    catalogues := s.catalogues.map (·.follow file)
    shared := s.shared.follow file }

def raise (s : Session) (number : Nat) : Session :=
  { s with
    tokens := s.tokens.map fun t =>
      if t.number = number then { t with isRaised := true } else t }

def charge (s : Session) (number : Option Nat) (requests : List Nat) : Session :=
  { s with
    accounts := s.accounts.map fun a =>
      if some a.number = number then
        { a with
          calls := a.calls + requests.length
          bytes := Word.wrap64 (requests.foldl (· + ·) a.bytes) }
      else a }

end Session

end ImageRegion
