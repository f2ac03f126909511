import ImageRegion.Image.Painting
import ImageRegion.Proofs.Image.Rows
import ImageRegion.Proofs.Packing

namespace ImageRegion

abbrev SourceRows := Nat → Except RowFailure (Array Pixel)

theorem Coding.size_row (k : Coding) (y : Nat) (pixels : Array Pixel) :
    (k.row y pixels).size = k.format.rowBytes pixels.size := by
  unfold row
  rw [Packing.size_flatMap (k := k.format.bytesPerPixel), Array.size_zipIdx]
  · rfl
  · rintro ⟨p, x⟩ _
    exact k.size_pixel x y p

theorem Coding.getElem?_row {k : Coding} {row : Array Pixel} {p : Pixel} {x y : Nat}
    (h : row[x]? = some p) {i : Nat} (hi : i < k.format.bytesPerPixel) :
    (k.row y row)[x * k.format.bytesPerPixel + i]? = (k.pixel x y p)[i]? := by
  obtain ⟨hx, rfl⟩ := Array.getElem?_eq_some_iff.mp h
  have hin : x < row.zipIdx.size := by simpa using hx
  have hpixel := Packing.getElem?_flatMap (f := fun q : Pixel × Nat => k.pixel q.2 y q.1)
    (fun q _ => k.size_pixel q.2 y q.1) hin hi
  rw [Array.getElem_zipIdx, Nat.zero_add] at hpixel
  exact hpixel

namespace Painting

variable (p : Painting) (rows : SourceRows) (stop : Stop)

def sourceRows (index : Index) (answers : Answers) : SourceRows :=
  index.rowOf answers p.region.left p.region.sourceWidth

def picked (y : Nat) : Except RowFailure (Array Pixel) :=
  match rows (p.region.centreRow y) with
  | .error failure => .error failure
  | .ok row =>
    .ok (Array.ofFn fun x : Fin p.region.width => row.getD (p.region.centreColumn x) .clear)

def tallied : (count y : Nat) → Array Tally → Except RowFailure (Array Tally)
  | 0, _, tallies => .ok tallies
  | count + 1, y, tallies =>
    match rows y with
    | .error failure => .error failure
    | .ok row => tallied count (y + 1) (p.tallyRow row tallies)

def averaged (y : Nat) : Except RowFailure (Array Pixel) :=
  let span := p.region.rows y
  match p.tallied rows span.length span.first (.replicate p.region.width .zero) with
  | .error failure => .error failure
  | .ok tallies =>
    .ok (tallies.mapIdx fun x tally =>
      tally.average (.ofNat ((p.region.columns x).length * span.length)))

def sampled (y : Nat) : Except RowFailure (Array Pixel) :=
  if p.quality then p.averaged rows y else p.picked rows y

def halt? (y : Nat) : Option Ending :=
  match stop (y + 1) with
  | some reason => some (.cancelled reason)
  | none =>
    match p.sampled rows y with
    | .error (.fault fault) => some (.failed fault)
    | .error (.breach breach) => some (.breached breach)
    | .ok _ => none

def line (y : Nat) : Array UInt8 :=
  match p.sampled rows y with
  | .error _ => #[]
  | .ok row => p.coding.row y row

def band (n : Nat) : Array UInt8 := (Array.range n).flatMap (p.line rows)

structure Progress (painted : Painted) (n : Nat) : Prop where
  clear : ∀ y < n, p.halt? rows stop y = none
  written : painted.written = p.band rows n
  ended : (n = p.region.height ∧ painted.ending = .finished ∧ painted.checks = n) ∨
    (n < p.region.height ∧ p.halt? rows stop n = some painted.ending ∧ painted.checks = n + 1)

variable {p rows stop}

theorem tallyRows_eq (p : Painting) (index : Index) (count y : Nat) (f : Feed)
    (tallies : Array Tally) : ∃ f' : Feed, f'.stream.answers = f.stream.answers ∧
      p.tallyRows index count y f tallies =
        (p.tallied (p.sourceRows index f.stream.answers) count y tallies, f') := by
  induction count generalizing y f tallies with
  | zero => exact ⟨f, rfl, rfl⟩
  | succ count ih =>
    obtain ⟨f', hf, hr⟩ := index.readRow_eq f y p.region.left p.region.sourceWidth
    simp only [tallyRows, tallied, hr, sourceRows]
    cases index.rowOf f.stream.answers p.region.left p.region.sourceWidth y with
    | error failure => exact ⟨f', hf, rfl⟩
    | ok row =>
      obtain ⟨f'', hf', he⟩ := ih (y + 1) f' (p.tallyRow row tallies)
      rw [hf] at hf' he
      exact ⟨f'', hf', he⟩

theorem sampleRow_eq (p : Painting) (index : Index) (f : Feed) (y : Nat) :
    ∃ f' : Feed, f'.stream.answers = f.stream.answers ∧
      p.sampleRow index f y = (p.sampled (p.sourceRows index f.stream.answers) y, f') := by
  unfold sampleRow sampled
  split
  · obtain ⟨f', hf, ht⟩ := p.tallyRows_eq index (p.region.rows y).length (p.region.rows y).first f
      (.replicate p.region.width .zero)
    refine ⟨f', hf, ?_⟩
    simp only [averageRow, averaged, ht]
    split <;> simp_all
  · obtain ⟨f', hf, hr⟩ :=
      index.readRow_eq f (p.region.centreRow y) p.region.left p.region.sourceWidth
    refine ⟨f', hf, ?_⟩
    simp only [pickRow, picked, hr, sourceRows]
    split <;> simp_all

theorem size_tallied {count y : Nat} {tallies result : Array Tally}
    (h : p.tallied rows count y tallies = .ok result) : result.size = tallies.size := by
  induction count generalizing y tallies with
  | zero =>
    cases h
    rfl
  | succ count ih =>
    simp only [tallied] at h
    split at h
    · cases h
    · rw [ih h, tallyRow, Array.size_mapIdx]

theorem size_sampled {y : Nat} {row : Array Pixel} (h : p.sampled rows y = .ok row) :
    row.size = p.region.width := by
  unfold sampled at h
  split at h
  · simp only [averaged] at h
    split at h
    · cases h
    next ht =>
      cases h
      rw [Array.size_mapIdx, size_tallied ht, Array.size_replicate]
  · simp only [picked] at h
    split at h
    · cases h
    · cases h
      exact Array.size_ofFn

theorem halt?_eq_none {y : Nat} :
    p.halt? rows stop y = none ↔ stop (y + 1) = none ∧ ∃ row, p.sampled rows y = .ok row := by
  unfold halt?
  cases stop (y + 1) with
  | some reason => simp
  | none => rcases p.sampled rows y with (fault | breach) | row <;> simp

theorem size_line {y : Nat} (h : p.halt? rows stop y = none) :
    (p.line rows y).size = p.coding.format.rowBytes p.region.width := by
  obtain ⟨row, hr⟩ := (halt?_eq_none.mp h).2
  unfold line
  rw [hr]
  simp only [Coding.size_row, size_sampled hr]

theorem size_band {n : Nat} (h : ∀ y < n, p.halt? rows stop y = none) :
    (p.band rows n).size = n * p.coding.format.rowBytes p.region.width := by
  unfold band
  rw [Packing.size_flatMap (k := p.coding.format.rowBytes p.region.width), Array.size_range]
  intro y hy
  exact size_line (h y (Array.mem_range.mp hy))

theorem band_succ (n : Nat) : p.band rows (n + 1) = p.band rows n ++ p.line rows n := by
  unfold band
  rw [Array.range_succ, Array.flatMap_append, Array.flatMap_singleton]

theorem paint_progress {index : Index} {f : Feed} {count y : Nat}
    (hy : y + count = p.region.height)
    (hrows : rows = p.sourceRows index f.stream.answers)
    (hclear : ∀ i < y, p.halt? rows stop i = none) :
    ∃ n, p.Progress rows stop (p.paint index stop count y (p.band rows y) f) n := by
  -- The rows before `y` are clear, and they are what has been written.
  induction count generalizing y f with
  | zero => exact ⟨y, hclear, rfl, .inl ⟨hy, rfl, rfl⟩⟩
  | succ count ih =>
    obtain ⟨f', hf, hs⟩ := p.sampleRow_eq index f y
    have hlt : y < p.region.height := by omega
    rw [← hrows] at hs
    simp only [paint]
    cases hstop : stop (y + 1) with
    | some reason => exact ⟨y, hclear, rfl, .inr ⟨hlt, by simp [halt?, hstop], rfl⟩⟩
    | none =>
      rw [hs]
      rcases hsampled : p.sampled rows y with (fault | breach) | row
      · exact ⟨y, hclear, rfl, .inr ⟨hlt, by simp [halt?, hstop, hsampled], rfl⟩⟩
      · exact ⟨y, hclear, rfl, .inr ⟨hlt, by simp [halt?, hstop, hsampled], rfl⟩⟩
      · have hline : p.line rows y = p.coding.row y row := by simp [line, hsampled]
        have hnext : ∀ i < y + 1, p.halt? rows stop i = none := by
          intro i hi
          rcases Nat.lt_succ_iff_lt_or_eq.mp hi with hi | rfl
          · exact hclear i hi
          · exact halt?_eq_none.mpr ⟨hstop, row, hsampled⟩
        rw [← hf] at hrows
        obtain ⟨n, hn⟩ := ih (by omega) hrows hnext
        rw [band_succ, hline] at hn
        exact ⟨n, hn⟩

theorem run_progress (p : Painting) (index : Index) (stop : Stop) (f : Feed) :
    ∃ n, p.Progress (p.sourceRows index f.stream.answers) stop (p.run index stop f) n :=
  paint_progress (Nat.zero_add _) rfl fun _ h => absurd h (Nat.not_lt_zero _)

theorem paint_answers (p : Painting) (index : Index) (stop : Stop) (count y : Nat)
    (written : Array UInt8) (f : Feed) :
    (p.paint index stop count y written f).feed.stream.answers = f.stream.answers := by
  induction count generalizing y written f with
  | zero => rfl
  | succ count ih =>
    obtain ⟨f', hf, hs⟩ := p.sampleRow_eq index f y
    simp only [paint]
    cases stop (y + 1) with
    | some reason => rfl
    | none =>
      rw [hs]
      rcases p.sampled (p.sourceRows index f.stream.answers) y with (fault | breach) | row
      · exact hf
      · exact hf
      · exact (ih (y + 1) _ f').trans hf

theorem Progress.le_height {painted : Painted} {n : Nat} (h : p.Progress rows stop painted n) :
    n ≤ p.region.height := by
  rcases h.ended with ⟨hn, _⟩ | ⟨hn, _⟩ <;> omega

theorem Progress.unique {a b : Painted} {m n : Nat} (ha : p.Progress rows stop a m)
    (hb : p.Progress rows stop b n) :
    a.ending = b.ending ∧ a.written = b.written ∧ a.checks = b.checks := by
  have hmn : m = n := by
    rcases Nat.lt_trichotomy m n with h | h | h
    · have hm := hb.clear m h
      rcases ha.ended with ⟨rfl, _⟩ | ⟨_, he, _⟩
      · exact absurd hb.le_height (Nat.not_le_of_lt h)
      · rw [hm] at he
        cases he
    · exact h
    · have hn := ha.clear n h
      rcases hb.ended with ⟨rfl, _⟩ | ⟨_, he, _⟩
      · exact absurd ha.le_height (Nat.not_le_of_lt h)
      · rw [hn] at he
        cases he
  subst hmn
  refine ⟨?_, ha.written.trans hb.written.symm, ?_⟩
  · rcases ha.ended with ⟨h, ha, _⟩ | ⟨h, ha, _⟩ <;> rcases hb.ended with ⟨h', hb, _⟩ | ⟨h', hb, _⟩
    · rw [ha, hb]
    · omega
    · omega
    · exact Option.some.inj (ha.symm.trans hb)
  · rcases ha.ended with ⟨h, _, ha⟩ | ⟨h, _, ha⟩ <;>
      rcases hb.ended with ⟨h', _, hb⟩ | ⟨h', _, hb⟩ <;>
      omega

end Painting

end ImageRegion
