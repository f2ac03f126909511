import ImageRegion.Proofs.Image.Delivery
import ImageRegion.Proofs.Image.Recasting
import ImageRegion.Proofs.Sampling.Grid

namespace ImageRegion

namespace Painting

variable {p : Painting} {rows rows' : SourceRows}

theorem tallied_congr {count y : Nat} {tallies : Array Tally}
    (h : ∀ j, y ≤ j → j < y + count → rows j = rows' j) :
    p.tallied rows count y tallies = p.tallied rows' count y tallies := by
  induction count generalizing y tallies with
  | zero => rfl
  | succ count ih =>
    simp only [tallied, h y (Nat.le_refl y) (by omega)]
    cases rows' y with
    | error failure => rfl
    | ok row => exact ih fun j hj hlt => h j (by omega) (by omega)

theorem picked_congr {y : Nat}
    (hcentre : rows (p.region.centreRow y) = rows' (p.region.centreRow y)) :
    p.picked rows y = p.picked rows' y := by
  simp only [picked, hcentre]

theorem averaged_congr {y : Nat}
    (hspan : ∀ j, (p.region.rows y).first ≤ j →
      j < (p.region.rows y).first + (p.region.rows y).length → rows j = rows' j) :
    p.averaged rows y = p.averaged rows' y := by
  simp only [averaged, tallied_congr hspan]

theorem sampled_congr {y : Nat}
    (hcentre : rows (p.region.centreRow y) = rows' (p.region.centreRow y))
    (hspan : ∀ j, (p.region.rows y).first ≤ j →
      j < (p.region.rows y).first + (p.region.rows y).length → rows j = rows' j) :
    p.sampled rows y = p.sampled rows' y := by
  unfold sampled
  split
  · exact averaged_congr hspan
  · exact picked_congr hcentre

theorem band_congr {n : Nat} (h : ∀ y < n, p.sampled rows y = p.sampled rows' y) :
    p.band rows n = p.band rows' n := by
  induction n with
  | zero => rfl
  | succ n ih =>
    have hline : p.line rows n = p.line rows' n := by
      simp only [line, h n (Nat.lt_succ_self n)]
    rw [band_succ, band_succ, hline, ih fun y hy => h y (Nat.lt_succ_of_lt hy)]

theorem Progress.congr {stop : Stop} {painted : Painted} {n : Nat}
    (h : ∀ y < p.region.height, p.sampled rows y = p.sampled rows' y)
    (hp : p.Progress rows stop painted n) : p.Progress rows' stop painted n := by
  have hhalt (y : Nat) (hy : y < p.region.height) :
      p.halt? rows stop y = p.halt? rows' stop y := by
    simp only [halt?, h y hy]
  have hle := hp.le_height
  constructor
  · intro y hy
    rw [← hhalt y (by omega)]
    exact hp.clear y hy
  · rw [hp.written]
    exact band_congr fun y hy => h y (by omega)
  · rcases hp.ended with hended | ⟨hlt, hhalted, hchecks⟩
    · exact .inl hended
    · rw [hhalt n hlt] at hhalted
      exact .inr ⟨hlt, hhalted, hchecks⟩

theorem Progress.resembles {φ : Fault → Fault} {stop : Stop} {painted painted' : Painted}
    {m n : Nat} (hm : p.Progress rows stop painted m) (hn : p.Progress rows' stop painted' n)
    (h : ∀ y < p.region.height, (p.sampled rows y).mapError (RowFailure.recast φ) =
      (p.sampled rows' y).mapError (RowFailure.recast φ)) : painted.Resembles φ painted' := by
  have hshared : p.Progress (SourceRows.recast φ rows') stop
      { painted with ending := painted.ending.recast φ } m := by
    apply hm.recast.congr
    intro y hy
    rw [sampled_recast, sampled_recast]
    exact h y hy
  obtain ⟨hending, hwritten, hchecks⟩ := hshared.unique hn.recast
  exact ⟨hending, hwritten, hchecks⟩

end Painting

def Index.Agree (index : Index) (c : Rect) (s t : Stream) : Prop :=
  ∀ j, c.top.toNat ≤ j → j < c.bottom.toNat →
    index.rowOf (s.turned 0).answers c.left.toNat c.width j =
      index.rowOf (t.turned 0).answers c.left.toNat c.width j

namespace Image

variable {im : Image} {rect c : Rect} {o : Options} {stop : Stop}

theorem plan_ok {r : Region} (h : im.plan rect o stop = .ok r) :
    0 < o.sampleSize ∧ stop 0 = none ∧
      ∃ c, im.bounds.intersect? rect = some c ∧ r = im.regionOf c o := by
  unfold plan at h
  split at h
  · cases h
  next hs =>
    split at h
    · cases h
    next hstop =>
      split at h
      · cases h
      next c hc =>
        dsimp only at h
        split at h
        · cases h
        · cases h
          exact ⟨Nat.pos_of_ne_zero hs, hstop, c, hc, rfl⟩

def Echoes (im' im : Image) (c : Rect) : Prop :=
  ∀ j, c.top.toNat ≤ j → j < c.bottom.toNat →
    im'.index.rowOf im'.feed.stream.answers c.left.toNat c.width j =
      im.index.rowOf im.feed.stream.answers c.left.toNat c.width j

theorem sampled_echo {im' : Image} (hc : im.Clamped c) (hs : 0 < o.sampleSize)
    (he : im'.Echoes im c) {y : Nat} (hy : y < (im.regionOf c o).height) :
    (o.painting (im.regionOf c o)).sampled (im'.rows (im.regionOf c o) o) y =
      (o.painting (im.regionOf c o)).sampled (im.rows (im.regionOf c o) o) y := by
  have hfirst := first_lt_bottom hc hs hy
  apply Painting.sampled_congr
  · apply he
    · rw [show (o.painting (im.regionOf c o)).region = im.regionOf c o from rfl,
        centreRow_eq hc hs]
      omega
    · rw [show (o.painting (im.regionOf c o)).region = im.regionOf c o from rfl,
        centreRow_eq hc hs]
      omega
  · intro j hj hlt
    rw [show (o.painting (im.regionOf c o)).region = im.regionOf c o from rfl,
      rows_regionOf hc] at hj hlt
    simp only [Span.length] at hj hlt
    exact he j (by omega) (by omega)

theorem paint_echo {im' : Image} (stop : Stop) (hc : im.Clamped c) (hs : 0 < o.sampleSize)
    (he : im'.Echoes im c) : (im'.paint (im.regionOf c o) o stop).Resembles id
      (im.paint (im.regionOf c o) o stop) := by
  obtain ⟨m, hm⟩ := im'.paint_progress (im.regionOf c o) o stop
  obtain ⟨n, hn⟩ := im.paint_progress (im.regionOf c o) o stop
  apply hm.resembles hn
  intro y hy
  rw [sampled_echo hc hs he hy]

section Resemblance

variable {im' : Image} {φ : Fault → Fault} (hencoding : im'.encoding = im.encoding)
  (hplan : im'.plan rect o stop = im.plan rect o stop)
  (hpaint : ∀ c, im.bounds.intersect? rect = some c → 0 < o.sampleSize →
    (im'.paint (im.regionOf c o) o stop).Resembles φ (im.paint (im.regionOf c o) o stop))

include hencoding hplan hpaint

theorem decode_resembles (hallot : ∀ c, im.bounds.intersect? rect = some c →
      im'.allocator.allot (im.regionOf c o).byteLength =
        im.allocator.allot (im.regionOf c o).byteLength) :
    (im'.decode rect o stop).1.recast φ = (im.decode rect o stop).1.recast φ := by
  unfold decode
  rw [hplan]
  cases hr : im.plan rect o stop with
  | error halt => rfl
  | ok r =>
    obtain ⟨hs, _, c, hc, rfl⟩ := plan_ok hr
    have hpainted := hpaint c hc hs
    simp only [hallot c hc, planned, hencoding]
    cases im.allocator.allot (im.regionOf c o).byteLength with
    | refused error => rfl
    | abandoned message => rfl
    | storage storage =>
      simp only [Decoding.recast, hpainted.written, hpainted.checks,
        Ending.result_congr hpainted.ending, Ending.events_congr hpainted.ending]

theorem decodeInto_resembles (target : Bitmap) :
    (im'.decodeInto rect o target stop).1.recast φ =
        (im.decodeInto rect o target stop).1.recast φ ∧
      (im'.decodeInto rect o target stop).2.1 = (im.decodeInto rect o target stop).2.1 := by
  unfold decodeInto
  rw [hplan]
  cases hr : im.plan rect o stop with
  | error halt => exact ⟨rfl, rfl⟩
  | ok r =>
    obtain ⟨hs, _, c, hc, rfl⟩ := plan_ok hr
    have hpainted := hpaint c hc hs
    simp only [planned, hencoding]
    cases target.reconfigure (im.regionOf c o).width (im.regionOf c o).height
        (im.regionOf c o).format o.premultiplied with
    | error error => exact ⟨rfl, rfl⟩
    | ok bitmap =>
      refine ⟨?_, hpainted.onto_eq bitmap⟩
      simp only [Decoding.recast, hpainted.checks, Ending.result_congr hpainted.ending,
        Ending.events_congr hpainted.ending]

end Resemblance

section Echoing

variable {im' : Image} (hencoding : im'.encoding = im.encoding)
  (hplan : im'.plan rect o stop = im.plan rect o stop)

include hencoding hplan

theorem decode_echo (he : ∀ c, im.bounds.intersect? rect = some c → im'.Echoes im c ∧
      im'.allocator.allot (im.regionOf c o).byteLength =
        im.allocator.allot (im.regionOf c o).byteLength) :
    (im'.decode rect o stop).1 = (im.decode rect o stop).1 := by
  have h := decode_resembles hencoding hplan
    (fun c hc hs => paint_echo stop (clamped_of_intersect? hc) hs (he c hc).1)
    (fun c hc => (he c hc).2)
  rw [Decoding.recast_id, Decoding.recast_id] at h
  exact h

theorem decodeInto_echo (he : ∀ c, im.bounds.intersect? rect = some c → im'.Echoes im c)
    (target : Bitmap) :
    (im'.decodeInto rect o target stop).1 = (im.decodeInto rect o target stop).1 ∧
      (im'.decodeInto rect o target stop).2.1 = (im.decodeInto rect o target stop).2.1 := by
  have h := decodeInto_resembles hencoding hplan
    (fun c hc hs => paint_echo stop (clamped_of_intersect? hc) hs (he c hc)) target
  rw [Decoding.recast_id, Decoding.recast_id] at h
  exact h

end Echoing

def fedBy (im : Image) (feed : Feed) (allocator : Allocator) : Image := { im with feed, allocator }

theorem echoes_fedBy {f : Feed} (a : Allocator) (ha : im.index.Agree c f.stream im.feed.stream) :
    (im.fedBy f a).Echoes im c := by
  intro j hj hlt
  have h := ha j hj hlt
  rw [Stream.answers_turned, Stream.answers_turned] at h
  exact h

theorem decode_fedBy {f : Feed} {a : Allocator}
    (ha : ∀ c, im.bounds.intersect? rect = some c → im.index.Agree c f.stream im.feed.stream ∧
      a.allot (im.regionOf c o).byteLength =
        im.allocator.allot (im.regionOf c o).byteLength) :
    ((im.fedBy f a).decode rect o stop).1 = (im.decode rect o stop).1 := by
  apply decode_echo
  · rfl
  · rfl
  · exact fun c hc => ⟨echoes_fedBy a (ha c hc).1, (ha c hc).2⟩

theorem decodeInto_fedBy {f : Feed} (a : Allocator) (stop : Stop)
    (ha : ∀ c, im.bounds.intersect? rect = some c → im.index.Agree c f.stream im.feed.stream)
    (target : Bitmap) :
    ((im.fedBy f a).decodeInto rect o target stop).1 = (im.decodeInto rect o target stop).1 ∧
      ((im.fedBy f a).decodeInto rect o target stop).2.1 =
        (im.decodeInto rect o target stop).2.1 := by
  have hecho (c : Rect) (hc : im.bounds.intersect? rect = some c) : (im.fedBy f a).Echoes im c :=
    echoes_fedBy a (ha c hc)
  apply decodeInto_echo _ _ hecho target
  · rfl
  · rfl

theorem decode_keeps (im : Image) (rect : Rect) (o : Options) (stop : Stop) :
    ∃ f : Feed, f.stream.answers = im.feed.stream.answers ∧
      (im.decode rect o stop).2 = im.fedBy f im.allocator := by
  unfold decode
  cases im.plan rect o stop with
  | error halt => exact ⟨im.feed, rfl, rfl⟩
  | ok r =>
    dsimp only
    cases im.allocator.allot r.byteLength with
    | refused error => exact ⟨im.feed, rfl, rfl⟩
    | abandoned message => exact ⟨im.feed, rfl, rfl⟩
    | storage storage => exact ⟨_, Painting.paint_answers _ _ _ _ _ _ _, rfl⟩

theorem decodeInto_keeps (im : Image) (rect : Rect) (o : Options) (target : Bitmap)
    (stop : Stop) : ∃ f : Feed, f.stream.answers = im.feed.stream.answers ∧
      (im.decodeInto rect o target stop).2.2 = im.fedBy f im.allocator := by
  unfold decodeInto
  cases im.plan rect o stop with
  | error halt => exact ⟨im.feed, rfl, rfl⟩
  | ok r =>
    dsimp only
    cases target.reconfigure r.width r.height r.format o.premultiplied with
    | error error => exact ⟨im.feed, rfl, rfl⟩
    | ok bitmap => exact ⟨_, Painting.paint_answers _ _ _ _ _ _ _, rfl⟩

end Image

end ImageRegion
