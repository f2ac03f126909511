import ImageRegion.Catalogue
import ImageRegion.Source.Supply

namespace ImageRegion

structure Order where
  supply : Supply
  limits : Limits
  tileSize : Nat
  account : Option (String × Allocator.Policy)
  between : Stream → Stream

inductive Shelf
  | shared
  | named (name : String)
  deriving DecidableEq

inductive Grip
  | kept (name : String)
  | raw (number : Nat)
  deriving DecidableEq

inductive Subject
  | viewer (name : String)
  | entry (shelf : Shelf) (grip : Grip)
  deriving DecidableEq

inductive Brake
  | none
  | after (checks : Nat) (reason : StopReason)
  | token (name : String) (raisedAt : Option Nat)
  deriving DecidableEq

structure Job where
  subject : Subject
  rect : Rect
  options : Options
  target : Option String
  keepAs : Option String
  brake : Brake
  deriving DecidableEq

inductive Step
  | openImage (name : String) (order : Order)
  | openInStages (name : String) (order : Order) (width height : Option Nat)
  | describe (name : String)
  | close (name : String)
  | decode (job : Job)
  | makeToken (name : String)
  | cloneToken (name source : String)
  | raiseToken (name : String)
  | readToken (name : String)
  | readAccount (name : String)
  | countReleased
  | ownerOffset (file : String)
  | truncateFile (file : String) (size : Nat)
  | writeFile (file : String) (start : Nat) (bytes : Array UInt8)
  | makeBitmap (name : String) (width height : Nat) (format : PixelFormat)
  | readBitmap (name : String)
  | writeBitmap (name : String) (start : Nat) (bytes : Array UInt8)
  | readRow (bitmap : String) (row : Nat)
  | touchBitmap (name : String)
  | viewBitmap (name : String)
  | expandBitmap (name : String)
  | dismantleBitmap (name : String)
  | openEntry (shelf : Shelf) (keepAs : String) (order : Order)
  | insertEntry (shelf : Shelf) (keepAs viewer : String)
  | entryWidth (shelf : Shelf) (grip : Grip)
  | entryHeight (shelf : Shelf) (grip : Grip)
  | releaseEntry (shelf : Shelf) (grip : Grip)
  | countEntries (shelf : Shelf)

structure Stages where
  probe : Probe
  stream : Stream
  image : Option Image

structure Report where
  result : Except Failure (Outcome Region)
  checks : Nat
  target : Option Bitmap
  fresh : Option Bitmap

structure Account where
  number : Nat
  calls : Nat
  bytes : Nat
  deriving DecidableEq

inductive Answer
  | done
  | missing
  | failed (failure : Failure)
  | opened (viewer : Viewer)
  | staged (stages : Option Stages) (result : Except Failure Viewer)
  | described (viewer : Viewer)
  | decoded (report : Report)
  | token (isRaised : Bool)
  | account (account : Account)
  | number (value : Nat)
  | bitmap (bitmap : Bitmap)
  | row (bytes : Array UInt8)
  | storage (bytes : Array UInt8)
  | view (view : Option View)
  | handle (handle : Handle)
  | catalogue (catalogue : Catalogue)

end ImageRegion
