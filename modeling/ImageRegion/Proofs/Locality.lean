import ImageRegion.Proofs.Cancellation
import ImageRegion.Proofs.History
import ImageRegion.Proofs.Image.Touched
import ImageRegion.Proofs.Stitching

/-!
What a decode looks at. A streamed image is read where the columns of the clamped rectangle are
stored, in the rows that the sampling picks or averages, and nowhere else: neither what is stored
around them nor whether it can be read shows in what comes of the decode.
-/

namespace ImageRegion

theorem Ending.failed_iff {α : Type} {ending : Ending} {value : α} :
    (∃ fault, ending = .failed fault) ↔
      ∃ fault, ending.result value = .error (.error (.decodeFailed fault)) := by
  cases ending <;> simp [Ending.result]

namespace Image

variable {im : Image} {rect c : Rect} {o : Options} {stop : Stop} {l : RowLayout}

section Agreement

variable {φ : Fault → Fault} {f g : Feed} {a : Allocator}

theorem paint_agrees (stop : Stop) (h : im.LaidOut l) (hc : im.Clamped c) (hs : 0 < o.sampleSize)
    (ha : ∀ k, c.Touches o k → f.stream.AgreesOn φ g.stream (l.touched c k)) :
    ((im.fedBy f a).paint (im.regionOf c o) o stop).Resembles φ
      ((im.fedBy g a).paint (im.regionOf c o) o stop) := by
  obtain ⟨m, hm⟩ := (im.fedBy f a).paint_progress (im.regionOf c o) o stop
  obtain ⟨n, hn⟩ := (im.fedBy g a).paint_progress (im.regionOf c o) o stop
  apply hm.resembles hn
  intro y hy
  rw [← Painting.sampled_recast, ← Painting.sampled_recast]
  apply sampled_of_needs
  intro k hk
  exact h.rowOf_agrees hc (lt_bottom_of_needs hc hs hk) (ha k ((touches_iff hc hs).mpr ⟨y, hy, hk⟩))

section

variable (stop : Stop) (h : im.LaidOut l)
  (ha : ∀ c, im.bounds.intersect? rect = some c → ∀ k, c.Touches o k →
    f.stream.AgreesOn φ g.stream (l.touched c k))

include h ha

theorem decode_agrees : ((im.fedBy f a).decode rect o stop).1.recast φ =
    ((im.fedBy g a).decode rect o stop).1.recast φ := by
  apply decode_resembles
  · rfl
  · rfl
  · intro c hc hs
    exact paint_agrees stop h (clamped_of_intersect? hc) hs (ha c hc)
  · exact fun _ _ => rfl

theorem decodeInto_agrees (target : Bitmap) :
    ((im.fedBy f a).decodeInto rect o target stop).1.recast φ =
        ((im.fedBy g a).decodeInto rect o target stop).1.recast φ ∧
      ((im.fedBy f a).decodeInto rect o target stop).2.1 =
        ((im.fedBy g a).decodeInto rect o target stop).2.1 := by
  apply decodeInto_resembles
  · rfl
  · rfl
  · intro c hc hs
    exact paint_agrees stop h (clamped_of_intersect? hc) hs (ha c hc)

end

end Agreement

section Outcome

variable (h : im.LaidOut l) (hc : im.Clamped c) (hs : 0 < o.sampleSize)

include h hc hs

theorem samples_iff {y : Nat} : im.Samples c o y ↔
    ∀ k, im.Needs c o y k → im.feed.stream.Yields (l.touched c k) := by
  constructor
  · intro hsamples k hk
    exact (h.reads_iff hc (lt_bottom_of_needs hc hs hk)).mp (hsamples k hk)
  · intro hyields k hk
    exact (h.reads_iff hc (lt_bottom_of_needs hc hs hk)).mpr (hyields k hk)

theorem paint_until_unread (hstop : ∀ k ≤ (im.regionOf c o).height, stop k = none) :
    ((im.paint (im.regionOf c o) o stop).ending = .finished ∧
      ∀ y < (im.regionOf c o).height, im.Samples c o y) ∨
    ∃ n < (im.regionOf c o).height, ∃ fault,
      (im.paint (im.regionOf c o) o stop).ending = .failed fault ∧
      (im.paint (im.regionOf c o) o stop).written =
        (o.painting (im.regionOf c o)).band (im.rows (im.regionOf c o) o) n ∧
      (∀ y < n, im.Samples c o y) ∧ ¬im.Samples c o n := by
  obtain ⟨n, hn⟩ := im.paint_progress (im.regionOf c o) o stop
  have hsampled (y : Nat) (hy : y < n) : im.Samples c o y :=
    sampled_ok_iff.mp (Painting.halt?_eq_none.mp (hn.clear y hy)).2
  rcases hn.ended with ⟨rfl, hended, _⟩ | ⟨hlt, hhalted, _⟩
  · exact .inl ⟨hended, hsampled⟩
  · -- No check fails, so the row that painting halts at is one that cannot be sampled.
    unfold Painting.halt? at hhalted
    rw [hstop (n + 1) hlt] at hhalted
    cases hrow : (o.painting (im.regionOf c o)).sampled (im.rows (im.regionOf c o) o) n with
    | ok row =>
      rw [hrow] at hhalted
      cases hhalted
    | error e =>
      obtain ⟨k, hk, he⟩ := error_of_sampled hrow
      have hbottom := lt_bottom_of_needs hc hs hk
      obtain ⟨hspan, _, _, hword⟩ := h.touched_eq hc hbottom
      obtain ⟨fault, rfl⟩ := Index.fault_of_rowOf h.layout (Nat.lt_trans hspan hword) he
      rw [hrow] at hhalted
      refine .inr ⟨n, hlt, fault, (Option.some.inj hhalted).symm, hn.written, hsampled, ?_⟩
      intro hsamples
      obtain ⟨row, hok⟩ := sampled_ok_iff.mpr hsamples
      rw [hrow] at hok
      cases hok

theorem ending_iff (hstop : ∀ k ≤ (im.regionOf c o).height, stop k = none) :
    ((∃ k, c.Touches o k ∧ ¬im.feed.stream.Yields (l.touched c k)) ↔
      ∃ fault, (im.paint (im.regionOf c o) o stop).ending = .failed fault) ∧
    ((∀ k, c.Touches o k → im.feed.stream.Yields (l.touched c k)) →
      (im.paint (im.regionOf c o) o stop).ending = .finished) := by
  rcases paint_until_unread h hc hs hstop with ⟨hended, hall⟩ | ⟨n, hn, fault, hended, _, _, hfails⟩
  · have hyields (k : Nat) (hk : c.Touches o k) :
        im.feed.stream.Yields (l.touched c k) := by
      obtain ⟨y, hy, hneeds⟩ := (touches_iff hc hs).mp hk
      exact (samples_iff h hc hs).mp (hall y hy) k hneeds
    refine ⟨⟨?_, ?_⟩, fun _ => hended⟩
    · rintro ⟨k, hk, hfails⟩
      exact absurd (hyields k hk) hfails
    · rintro ⟨fault, hfailed⟩
      rw [hended] at hfailed
      cases hfailed
  · rw [samples_iff h hc hs, not_forall] at hfails
    obtain ⟨k, hk⟩ := hfails
    obtain ⟨hneeds, hunread⟩ := Classical.not_imp.mp hk
    have htouched : c.Touches o k := (touches_iff hc hs).mpr ⟨n, hn, hneeds⟩
    refine ⟨⟨fun _ => ⟨fault, hended⟩, fun _ => ⟨k, htouched, hunread⟩⟩, ?_⟩
    intro hall
    exact absurd (hall k htouched) hunread

end Outcome

section Request

variable (h : im.LaidOut l) (hrect : im.bounds.intersect? rect = some c) (hs : 0 < o.sampleSize)
  (hl : Limits.Admits im.limits.regionBytes (im.regionOf c o).byteLength)
  (hstop : ∀ k ≤ (im.regionOf c o).height, stop k = none)

include h hrect hs hl hstop

theorem decode_failed_iff {storage : Array UInt8}
    (ha : im.allocator.allot (im.regionOf c o).byteLength = .storage storage) :
    ((∃ fault, (im.decode rect o stop).1.result = .error (.error (.decodeFailed fault))) ↔
      ∃ k, c.Touches o k ∧ ¬im.feed.stream.Yields (l.touched c k)) ∧
    ((∀ k, c.Touches o k → im.feed.stream.Yields (l.touched c k)) →
      ∃ bitmap, (im.decode rect o stop).1.result = .ok (.decoded (bitmap, im.regionOf c o))) := by
  have hplan := plan_eq_ok hs (hstop 0 (Nat.zero_le _)) hrect hl
  obtain ⟨hfailed, hfinished⟩ := ending_iff h (clamped_of_intersect? hrect) hs hstop
  rw [(decode_of_storage hplan ha).1]
  refine ⟨Ending.failed_iff.symm.trans hfailed.symm, fun hyields => ?_⟩
  rw [hfinished hyields]
  exact ⟨_, rfl⟩

theorem decodeInto_failed_iff {target : Bitmap}
    (hsize : (im.regionOf c o).byteLength ≤ target.capacity) :
    ((∃ fault, (im.decodeInto rect o target stop).1.result =
        .error (.error (.decodeFailed fault))) ↔
      ∃ k, c.Touches o k ∧ ¬im.feed.stream.Yields (l.touched c k)) ∧
    ((∀ k, c.Touches o k → im.feed.stream.Yields (l.touched c k)) →
      (im.decodeInto rect o target stop).1.result = .ok (.decoded (im.regionOf c o))) := by
  have hplan := plan_eq_ok hs (hstop 0 (Nat.zero_le _)) hrect hl
  obtain ⟨hfailed, hfinished⟩ := ending_iff h (clamped_of_intersect? hrect) hs hstop
  rw [(decodeInto_of_le hplan hsize).1]
  refine ⟨Ending.failed_iff.symm.trans hfailed.symm, fun hyields => ?_⟩
  rw [hfinished hyields]
  rfl

end Request

theorem paintable_of_yields (h : im.LaidOut l) (hc : im.Clamped c) (hs : 0 < o.sampleSize)
    (hyields : ∀ k, c.Touches o k → im.feed.stream.Yields (l.touched c k)) :
    (o.painting (im.regionOf c o)).Paintable (im.rows (im.regionOf c o) o) := by
  intro y hy
  apply sampled_ok_iff.mpr
  apply (samples_iff h hc hs).mpr
  intro k hk
  exact hyields k ((touches_iff hc hs).mpr ⟨y, hy, hk⟩)

theorem band_mended {g : Feed} {a : Allocator} {n : Nat} (h : im.LaidOut l) (hc : im.Clamped c)
    (hs : 0 < o.sampleSize) (hn : n ≤ (im.regionOf c o).height)
    (hbefore : ∀ y < n, im.Samples c o y)
    (hmends : ∀ k, c.Touches o k → g.stream.Mends im.feed.stream (l.touched c k)) :
    (o.painting (im.regionOf c o)).band (im.rows (im.regionOf c o) o) n =
      (o.painting (im.regionOf c o)).band ((im.fedBy g a).rows (im.regionOf c o) o) n := by
  apply Painting.band_congr
  intro y hy
  apply sampled_of_needs
  intro k hk
  obtain ⟨row, hrow⟩ := hbefore y hy k hk
  have htouched : c.Touches o k := (touches_iff hc hs).mpr ⟨y, Nat.lt_of_lt_of_le hy hn, hk⟩
  have hbottom := lt_bottom_of_needs hc hs hk
  rw [Index.readRow_fst] at hrow
  exact hrow.trans (h.rowOf_mended hc hbottom (hmends k htouched) hrow).symm

theorem cutShort_of_unread {target : Bitmap} (h : im.LaidOut l)
    (hrect : im.bounds.intersect? rect = some c) (hs : 0 < o.sampleSize)
    (hl : Limits.Admits im.limits.regionBytes (im.regionOf c o).byteLength)
    (hstop : ∀ k ≤ (im.regionOf c o).height, stop k = none)
    (hsize : (im.regionOf c o).byteLength ≤ target.capacity)
    (hunread : ∃ k, c.Touches o k ∧ ¬im.feed.stream.Yields (l.touched c k)) :
    ∃ n < (im.regionOf c o).height,
      (∀ y < n, ∀ k, im.Needs c o y k → im.feed.stream.Yields (l.touched c k)) ∧
      (∃ k, im.Needs c o n k ∧ ¬im.feed.stream.Yields (l.touched c k)) ∧
      (∃ g : Feed, ∀ k, c.Touches o k → g.stream.Mends im.feed.stream (l.touched c k)) ∧
      ∀ g : Feed, (∀ k, c.Touches o k → g.stream.Mends im.feed.stream (l.touched c k)) →
        target.CutShort ((im.fedBy g im.allocator).decodeInto rect o target stop).2.1
          (im.decodeInto rect o target stop).2.1 (im.regionOf c o) o n := by
  have hc := clamped_of_intersect? hrect
  have hplan := plan_eq_ok hs (hstop 0 (Nat.zero_le _)) hrect hl
  rcases paint_until_unread h hc hs hstop with ⟨_, hall⟩ | ⟨n, hn, fault, hfailed⟩
  · obtain ⟨k, hk, hfails⟩ := hunread
    obtain ⟨y, hy, hneeds⟩ := (touches_iff hc hs).mp hk
    exact absurd ((samples_iff h hc hs).mp (hall y hy) k hneeds) hfails
  · obtain ⟨hended, hwritten, hbefore, hfails⟩ := hfailed
    refine ⟨n, hn, fun y hy => (samples_iff h hc hs).mp (hbefore y hy), ?_, ?_, fun g hmends => ?_⟩
    · rw [samples_iff h hc hs, not_forall] at hfails
      obtain ⟨k, hk⟩ := hfails
      exact ⟨k, Classical.not_imp.mp hk⟩
    · obtain ⟨t, ht⟩ := im.feed.stream.exists_mends 0x10000000000000000
      refine ⟨.ofStream t, fun k hk => ht _ ?_⟩
      obtain ⟨y, _, hneeds⟩ := (touches_iff hc hs).mp hk
      obtain ⟨_, _, _, hword⟩ := h.touched_eq hc (lt_bottom_of_needs hc hs hneeds)
      exact Nat.le_of_lt hword
    · -- The rows before row `n` need nothing that is mended, so they are the same over `g`.
      let im' := im.fedBy g im.allocator
      have h' : im'.LaidOut l := ⟨h.layout, h.pixelBytes, h.start_lt⟩
      have hc' : im'.Clamped c := clamped_of_intersect? hrect
      have hpaintable : (o.painting (im.regionOf c o)).Paintable (im'.rows (im.regionOf c o) o) :=
        paintable_of_yields h' hc' hs fun k hk => (hmends k hk).yields
      have hpasses := decodeInto_passes hpaintable hplan hsize hstop
      have hshort := band_mended (a := im.allocator) h hc hs (Nat.le_of_lt hn) hbefore hmends
      rw [hpasses.2.2, (decodeInto_of_le hplan hsize).2.2]
      apply cutShort_onto hpaintable hsize (Nat.le_of_lt hn) (hwritten.trans hshort)
      intro breach hbreach
      rw [hended] at hbreach
      cases hbreach

end Image

theorem Index.Built.encoding_eq {s t : Stream} {config config' : Config}
    {encoding encoding' : Encoding} {index : Index} {l : RowLayout}
    (h : Built s config encoding index) (hl : index.layout? = some l)
    (h' : Built t config' encoding' index) : encoding = encoding' := by
  cases h with
  | pnm _ _ =>
    cases h'
    rfl
  | farbfeld _ =>
    cases h'
    rfl
  | tiled _ _ _ => cases hl

namespace Viewer

variable {s t : Stream} {config : Config} {v w : Viewer} {events events' : List Event}
  {l : RowLayout}

theorem Opened.laidOut (h : v.Opened s config) (hlength : s.length < Stream.fileLimit)
    (hl : v.image.index.layout? = some l) : v.image.LaidOut l := by
  have hshort : s.length < Word.greatest := Nat.lt_trans hlength (by decide)
  refine ⟨hl, h.built.pixelBytes_pos hl, fun x hx y hy => ?_⟩
  have hstop := h.built.start_le hl hshort hx hy
  exact Nat.lt_of_le_of_lt hstop (Nat.lt_trans hlength (by decide))

theorem Opened.eq_fedBy (h : v.Opened s config) (h' : w.Opened t config)
    (hl : v.image.index.layout? = some l) (hheader : w.image.index = v.image.index) :
    w = v.fedBy w.image.feed v.image.allocator := by
  have hencoding : w.image.encoding = v.image.encoding :=
    h'.built.encoding_eq (hheader ▸ hl) (hheader ▸ h.built)
  have hallocator := h'.allocator.trans h.allocator.symm
  have hlimits := h'.limits.trans h.limits.symm
  have hwidth : w.width = v.width := by
    rw [h'.width, h.width, Image.width, Image.width, hheader]
  have hheight : w.height = v.height := by
    rw [h'.height, h.height, Image.height, Image.height, hheader]
  obtain ⟨⟨_, _, _, _, feed⟩, _, _⟩ := w
  dsimp only at hencoding hallocator hlimits hheader hwidth hheight
  subst hencoding hallocator hlimits hheader hwidth hheight
  rfl

end Viewer

end ImageRegion
