import ImageRegion.Image.Decode
import ImageRegion.Proofs.Image.Progress

namespace ImageRegion

variable (φ : Fault → Fault)

def RowFault.recast : RowFault → RowFault
  | .pnmRow row fault => .pnmRow row (φ fault)
  | .farbfeldRow row fault => .farbfeldRow row (φ fault)
  | fault => fault

def RowFailure.recast : RowFailure → RowFailure
  | .fault cause => .fault (cause.recast φ)
  | failure => failure

def Failure.recast : Failure → Failure
  | .error (.decodeFailed fault) => .error (.decodeFailed (fault.recast φ))
  | failure => failure

def Ending.recast : Ending → Ending
  | .failed fault => .failed (fault.recast φ)
  | ending => ending

def Decoding.recast {α : Type} (d : Decoding α) : Decoding α :=
  { d with result := d.result.mapError (Failure.recast φ) }

def Answers.recast (answers : Answers) : Answers :=
  fun offset count => (answers offset count).mapError φ

def SourceRows.recast (rows : SourceRows) : SourceRows :=
  fun y => (rows y).mapError (RowFailure.recast φ)

theorem RowFault.recast_id (fault : RowFault) : fault.recast id = fault := by
  cases fault <;> rfl

theorem Failure.recast_id (failure : Failure) : failure.recast id = failure := by
  cases failure with
  | error e =>
    cases e with
    | decodeFailed fault => simp only [recast, RowFault.recast_id]
    | _ => rfl
  | _ => rfl

theorem Decoding.recast_id {α : Type} (d : Decoding α) : d.recast id = d := by
  have hresult : d.result.mapError (Failure.recast id) = d.result := by
    cases d.result with
    | error failure => exact congrArg Except.error failure.recast_id
    | ok outcome => rfl
  rw [recast, hresult]

theorem Answers.row_recast (answers : Answers) {offset : Except Word.Overflow Nat}
    {size count : Nat} {decode : Array UInt8 → Nat → Pixel} {blame : Fault → RowFault}
    (hblame : ∀ fault, (blame fault).recast φ = blame (φ fault)) :
    (answers.row offset size count decode blame).mapError (RowFailure.recast φ) =
      (Answers.recast φ answers).row offset size count decode blame := by
  unfold row recast
  cases offset with
  | error cause => rfl
  | ok offset =>
    dsimp only
    cases answers offset (count * size) with
    | error fault =>
      exact congrArg (fun cause => Except.error (RowFailure.fault cause)) (hblame fault)
    | ok bytes => rfl

theorem Index.rowOf_recast (index : Index) (answers : Answers) (x count y : Nat) :
    (index.rowOf answers x count y).mapError (RowFailure.recast φ) =
      index.rowOf (Answers.recast φ answers) x count y := by
  cases index with
  | pnm h => exact Answers.row_recast φ answers fun _ => rfl
  | farbfeld h => exact Answers.row_recast φ answers fun _ => rfl
  | tiled m =>
    unfold rowOf Mosaic.readRow
    dsimp only
    split <;> rfl

namespace Painting

variable {p : Painting} {rows : SourceRows} {stop : Stop}

theorem tallied_recast (count y : Nat) (tallies : Array Tally) :
    p.tallied (SourceRows.recast φ rows) count y tallies =
      (p.tallied rows count y tallies).mapError (RowFailure.recast φ) := by
  induction count generalizing y tallies with
  | zero => rfl
  | succ count ih =>
    simp only [tallied, SourceRows.recast]
    cases rows y with
    | error failure => rfl
    | ok row => exact ih (y + 1) _

theorem sampled_recast (y : Nat) :
    p.sampled (SourceRows.recast φ rows) y =
      (p.sampled rows y).mapError (RowFailure.recast φ) := by
  unfold sampled
  split
  · unfold averaged
    dsimp only
    rw [tallied_recast]
    cases p.tallied rows (p.region.rows y).length (p.region.rows y).first
      (.replicate p.region.width .zero) <;> rfl
  · unfold picked SourceRows.recast
    cases rows (p.region.centreRow y) <;> rfl

theorem halt?_recast (y : Nat) :
    p.halt? (SourceRows.recast φ rows) stop y = (p.halt? rows stop y).map (Ending.recast φ) := by
  unfold halt?
  cases stop (y + 1) with
  | some reason => rfl
  | none =>
    rw [sampled_recast]
    rcases p.sampled rows y with (fault | breach) | row <;> rfl

theorem line_recast (y : Nat) : p.line (SourceRows.recast φ rows) y = p.line rows y := by
  unfold line
  rw [sampled_recast]
  cases p.sampled rows y <;> rfl

theorem band_recast (n : Nat) : p.band (SourceRows.recast φ rows) n = p.band rows n := by
  unfold band
  rw [show p.line (SourceRows.recast φ rows) = p.line rows from funext fun y => line_recast φ y]

variable {φ}

theorem Progress.recast {painted : Painted} {n : Nat} (h : p.Progress rows stop painted n) :
    p.Progress (SourceRows.recast φ rows) stop
      { painted with ending := painted.ending.recast φ } n := by
  constructor
  · intro y hy
    rw [halt?_recast, h.clear y hy]
    rfl
  · rw [band_recast]
    exact h.written
  · rcases h.ended with ⟨hn, hended, hchecks⟩ | ⟨hn, hhalted, hchecks⟩
    · refine .inl ⟨hn, ?_, hchecks⟩
      rw [hended]
      rfl
    · refine .inr ⟨hn, ?_, hchecks⟩
      rw [halt?_recast, hhalted]
      rfl

end Painting

section Congruence

variable {φ} {ending ending' : Ending}

theorem Ending.result_congr {α : Type} (h : ending.recast φ = ending'.recast φ) (value : α) :
    (ending.result value).mapError (Failure.recast φ) =
      (ending'.result value).mapError (Failure.recast φ) := by
  have hresult (ending : Ending) :
      (ending.result value).mapError (Failure.recast φ) = (ending.recast φ).result value := by
    cases ending <;> rfl
  rw [hresult, hresult, h]

theorem Ending.events_congr (h : ending.recast φ = ending'.recast φ) (encoding : Encoding) :
    ending.events encoding = ending'.events encoding := by
  have hevents (ending : Ending) : ending.events encoding = (ending.recast φ).events encoding := by
    cases ending <;> rfl
  rw [hevents, hevents ending', h]

/-- Two paintings have come to the same, but for what `φ` drops of the fault that ended them. -/
structure Painted.Resembles (φ : Fault → Fault) (painted painted' : Painted) : Prop where
  ending : painted.ending.recast φ = painted'.ending.recast φ
  written : painted.written = painted'.written
  checks : painted.checks = painted'.checks

theorem Painted.Resembles.onto_eq {painted painted' : Painted} (h : painted.Resembles φ painted')
    (b : Bitmap) : painted.onto b = painted'.onto b := by
  have honto (painted : Painted) :
      painted.onto b = onto { painted with ending := painted.ending.recast φ } b := by
    unfold onto
    cases painted.ending <;> rfl
  rw [honto, honto painted']
  simp only [onto, h.ending, h.written]

end Congruence

end ImageRegion
