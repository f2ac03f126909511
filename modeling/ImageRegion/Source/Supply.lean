import ImageRegion.Source.Adapter

namespace ImageRegion

inductive Supply
  | bytes (content : Content)
  | drained (reader : Stream)
  | asset (asset : Stream) (declared : Nat)
  | file (file : File)
  | held (reader : Stream)

namespace Supply

def stream : Supply → Except Error Stream
  | .bytes c => .ok (.ofContent c)
  | .drained r => Stream.ofReader r
  | .asset a declared => Stream.ofAsset a declared
  | .file f => .ok (.ofFile f)
  | .held r => r.measured

/-- The stream that is given away with the supply. A reader is given away even if it turns out not
to be measurable. -/
def handed? (supply : Supply) : Option Stream :=
  match supply.stream with
  | .ok s => some s
  | .error _ =>
    match supply with
    | .held r => some r
    | _ => none

def file? : Supply → Option File
  | .file f => some f
  | _ => none

def numbered (number : Nat) : Supply → Supply
  | .file f => .file { f with number }
  | s => s

end Supply

end ImageRegion
