import ImageRegion.Proofs.Image.Agreement
import ImageRegion.Proofs.Image.Opening

namespace ImageRegion

namespace Feed

theorem load_turns (f : Feed) (offset count : Nat) :
    ∃ position, (f.load offset count).2.stream = f.stream.turned position := by
  rw [load_stream]
  exact f.stream.readExactAt_turns offset count

end Feed

namespace Index

variable {s t : Stream} {config : Config}

theorem readRow_turns (index : Index) (f : Feed) (y x count : Nat) :
    ∃ position, (index.readRow f y x count).2.stream = f.stream.turned position := by
  cases index with
  | pnm h =>
    simp only [readRow, Netpbm.Header.readRow]
    cases h.offsetOf x y with
    | error cause => exact ⟨f.stream.position, rfl⟩
    | ok offset =>
      obtain ⟨position, hp⟩ := f.load_turns offset (count * h.pixelBytes)
      refine ⟨position, ?_⟩
      rw [← hp]
      dsimp only
      split <;> simp_all
  | farbfeld h =>
    simp only [readRow, Farbfeld.Header.readRow]
    cases h.offsetOf x y with
    | error cause => exact ⟨f.stream.position, rfl⟩
    | ok offset =>
      obtain ⟨position, hp⟩ := f.load_turns offset (count * Farbfeld.pixelBytes)
      refine ⟨position, ?_⟩
      rw [← hp]
      dsimp only
      split <;> simp_all
  | tiled m => exact ⟨f.stream.position, rfl⟩

end Index

namespace Painting

variable (p : Painting) (index : Index)

theorem tallyRows_turns (count y : Nat) (f : Feed) (tallies : Array Tally) :
    ∃ position, (p.tallyRows index count y f tallies).2.stream = f.stream.turned position := by
  induction count generalizing y f tallies with
  | zero => exact ⟨f.stream.position, rfl⟩
  | succ count ih =>
    have hread := index.readRow_turns f y p.region.left p.region.sourceWidth
    unfold tallyRows
    revert hread
    rcases index.readRow f y p.region.left p.region.sourceWidth with ⟨failure | row, f'⟩
    · exact id
    · rintro ⟨position, hp⟩
      obtain ⟨last, hlast⟩ := ih (y + 1) f' (p.tallyRow row tallies)
      rw [show f'.stream = _ from hp] at hlast
      exact ⟨last, hlast⟩

theorem sampleRow_turns (f : Feed) (y : Nat) :
    ∃ position, (p.sampleRow index f y).2.stream = f.stream.turned position := by
  unfold sampleRow
  split
  · obtain ⟨position, hp⟩ := p.tallyRows_turns index (p.region.rows y).length
      (p.region.rows y).first f (.replicate p.region.width .zero)
    refine ⟨position, hp ▸ ?_⟩
    unfold averageRow
    dsimp only
    split <;> simp_all
  · obtain ⟨position, hp⟩ :=
      index.readRow_turns f (p.region.centreRow y) p.region.left p.region.sourceWidth
    refine ⟨position, hp ▸ ?_⟩
    unfold pickRow
    split <;> simp_all

theorem paint_turns (stop : Stop) (count y : Nat) (written : Array UInt8) (f : Feed) :
    ∃ position, (p.paint index stop count y written f).feed.stream = f.stream.turned position := by
  induction count generalizing y written f with
  | zero => exact ⟨f.stream.position, rfl⟩
  | succ count ih =>
    have hrow := p.sampleRow_turns index f y
    unfold paint
    cases stop (y + 1) with
    | some reason => exact ⟨f.stream.position, rfl⟩
    | none =>
      dsimp only
      revert hrow
      rcases p.sampleRow index f y with ⟨(fault | breach) | row, f'⟩
      · exact id
      · exact id
      · rintro ⟨position, hp⟩
        obtain ⟨last, hlast⟩ := ih (y + 1) (written ++ p.coding.row y row) f'
        rw [show f'.stream = _ from hp] at hlast
        exact ⟨last, hlast⟩

end Painting

namespace Image

theorem decode_turns (im : Image) (rect : Rect) (o : Options) (stop : Stop) :
    ∃ position, (im.decode rect o stop).2.feed.stream = im.feed.stream.turned position := by
  unfold decode
  cases im.plan rect o stop with
  | error halt => exact ⟨im.feed.stream.position, rfl⟩
  | ok r =>
    dsimp only
    cases im.allocator.allot r.byteLength with
    | refused error => exact ⟨im.feed.stream.position, rfl⟩
    | abandoned message => exact ⟨im.feed.stream.position, rfl⟩
    | storage storage => exact Painting.paint_turns _ _ _ _ _ _ _

theorem decodeInto_turns (im : Image) (rect : Rect) (o : Options) (target : Bitmap) (stop : Stop) :
    ∃ position,
      (im.decodeInto rect o target stop).2.2.feed.stream = im.feed.stream.turned position := by
  unfold decodeInto
  cases im.plan rect o stop with
  | error halt => exact ⟨im.feed.stream.position, rfl⟩
  | ok r =>
    dsimp only
    cases target.reconfigure r.width r.height r.format o.premultiplied with
    | error error => exact ⟨im.feed.stream.position, rfl⟩
    | ok bitmap => exact Painting.paint_turns _ _ _ _ _ _ _

end Image

theorem Probe.index_turns {p : Probe} {s : Stream} {config : Config} {image : Image}
    {event : Event} (h : p.index s config = .ok (image, event)) :
    ∃ position, image.feed.stream = s.turned position := by
  obtain ⟨⟨index, s', event⟩, hbuild, himage⟩ := bind_eq_ok h
  cases himage
  exact (Index.built_of_build hbuild).2

theorem Viewer.openChanging_turns {between : Stream → Stream} {s : Stream} {config : Config}
    {v : Viewer} (h : (openChanging between s config).1 = .ok v) :
    ∃ first last, v.stream = (between (s.turned first)).turned last := by
  unfold openChanging at h
  split at h
  · cases h
  · split at h
    · cases h
    next probe s' hprobe =>
      obtain ⟨first, rfl⟩ := Probe.ofStream_turns hprobe
      split at h
      · cases h
      next image event hindex =>
        cases h
        obtain ⟨last, hlast⟩ := Probe.index_turns hindex
        exact ⟨first, last, hlast⟩

end ImageRegion
