import ImageRegion.Proofs.Image.Recoding
import ImageRegion.Proofs.Pixel.Dithering

namespace ImageRegion

/-- Each output row comes to both paintings, or fails them alike, whatever its pixels are. -/
structure Painting.Paces (p p' : Painting) (rows : SourceRows) : Prop where
  region : p'.region = p.region
  sampled : ∀ y < p.region.height,
    (p'.sampled rows y).map (fun _ => ()) = (p.sampled rows y).map fun _ => ()

namespace Painting

variable {p p' : Painting} {rows : SourceRows} {stop : Stop} {painted painted' : Painted}
  {m n y : Nat}

theorem Paces.halt?_eq (h : p.Paces p' rows) (hy : y < p.region.height) :
    p'.halt? rows stop y = p.halt? rows stop y := by
  have hsampled := h.sampled y hy
  unfold halt?
  cases stop (y + 1) with
  | some reason => rfl
  | none =>
    revert hsampled
    rcases p.sampled rows y with (fault | breach) | row <;>
      rcases p'.sampled rows y with (fault' | breach') | row' <;>
      simp [Except.map]

theorem Progress.paced (h : p.Paces p' rows) (hp : p.Progress rows stop painted n) :
    p'.Progress rows stop { painted with written := p'.band rows n } n := by
  have hle := hp.le_height
  constructor
  · intro y hy
    rw [h.halt?_eq (by omega)]
    exact hp.clear y hy
  · rfl
  · rw [h.region]
    rcases hp.ended with hended | ⟨hlt, hhalted, hchecks⟩
    · exact .inl hended
    · exact .inr ⟨hlt, (h.halt?_eq hlt).trans hhalted, hchecks⟩

theorem Paces.ends_alike (h : p.Paces p' rows) (hp : p.Progress rows stop painted m)
    (hp' : p'.Progress rows stop painted' n) :
    painted'.ending = painted.ending ∧ painted'.checks = painted.checks := by
  obtain ⟨hending, _, hchecks⟩ := hp'.unique (hp.paced h)
  exact ⟨hending, hchecks⟩

end Painting

def Decoding.map {α β : Type} (f : α → β) (d : Decoding α) : Decoding β :=
  ⟨d.result.map fun outcome => outcome.map f, d.checks, d.requests, d.events⟩

namespace Image

variable {im : Image} {rect : Rect} {o o' : Options} {stop : Stop} {r : Region} {b : Bitmap}

structure Paces (im : Image) (rect : Rect) (o o' : Options) : Prop where
  sampleSize : o'.sampleSize = o.sampleSize
  format : o'.format = o.format
  painting : ∀ c, im.bounds.intersect? rect = some c → 0 < o.sampleSize →
    (o.painting (im.regionOf c o)).Paces (o'.painting (im.regionOf c o))
      (im.rows (im.regionOf c o) o)

theorem Paces.plan_eq (h : im.Paces rect o o') (stop : Stop) :
    im.plan rect o' stop = im.plan rect o stop := by
  simp only [plan, regionOf, h.sampleSize, h.format]

theorem Paces.paint_eq (h : im.Paces rect o o') (hplan : im.plan rect o stop = .ok r) :
    (im.paint r o' stop).ending = (im.paint r o stop).ending ∧
      (im.paint r o' stop).checks = (im.paint r o stop).checks := by
  obtain ⟨hs, _, c, hc, rfl⟩ := plan_ok hplan
  obtain ⟨m, hm⟩ := im.paint_progress (im.regionOf c o) o stop
  obtain ⟨n, hn⟩ := im.paint_progress (im.regionOf c o) o' stop
  exact (h.painting c hc hs).ends_alike hm hn

theorem Paces.decode_eq (h : im.Paces rect o o') (stop : Stop) :
    (im.decode rect o' stop).1.map Prod.snd = (im.decode rect o stop).1.map Prod.snd := by
  unfold decode
  rw [h.plan_eq]
  cases hplan : im.plan rect o stop with
  | error halt => simp only [planChecks, h.sampleSize]
  | ok r =>
    dsimp only
    cases im.allocator.allot r.byteLength with
    | refused error => rfl
    | abandoned message => rfl
    | storage storage =>
      obtain ⟨hending, hchecks⟩ := h.paint_eq hplan
      simp only [Decoding.map, Ending.result_map, hending, hchecks]

theorem Paces.decodeInto_eq (h : im.Paces rect o o') (target : Bitmap) (stop : Stop) :
    (im.decodeInto rect o' target stop).1 = (im.decodeInto rect o target stop).1 := by
  unfold decodeInto
  rw [h.plan_eq]
  cases hplan : im.plan rect o stop with
  | error halt => simp only [planChecks, h.sampleSize]
  | ok r =>
    obtain ⟨hending, hchecks⟩ := h.paint_eq hplan
    by_cases hsize : r.byteLength ≤ target.capacity
    · simp only [Bitmap.reconfigure_of_le _ hsize, hending, hchecks]
    · simp only [Bitmap.reconfigure_of_lt _ (Nat.lt_of_not_le hsize)]

/-- A decode of the rectangle that nothing ended early came to the bitmap, in fresh storage or in a
bitmap that was used again. -/
inductive Gives (im : Image) (rect : Rect) (o : Options) : Bitmap → Region → Prop
  | fresh {stop : Stop} {b : Bitmap} {r : Region}
      (h : (im.decode rect o stop).1.result = .ok (.decoded (b, r))) : im.Gives rect o b r
  | reused {stop : Stop} {target : Bitmap} {r : Region}
      (h : (im.decodeInto rect o target stop).1.result = .ok (.decoded r)) :
      im.Gives rect o (im.decodeInto rect o target stop).2.1 r

theorem exists_gives {c : Rect} {storage : Array UInt8} (hc : im.bounds.intersect? rect = some c)
    (hs : 0 < o.sampleSize)
    (hl : Limits.Admits im.limits.regionBytes (im.regionOf c o).byteLength)
    (ha : im.allocator.allot (im.regionOf c o).byteLength = .storage storage)
    (hreads : ∀ j, c.top.toNat ≤ j → j < c.bottom.toNat → im.Reads c j) :
    ∃ b, im.Gives rect o b (im.regionOf c o) := by
  have hp := paintable_of_reads (clamped_of_intersect? hc) hs hreads
  have hplan := plan_eq_ok hs (Stop.never_passes 0 0 (Nat.le_refl 0)) hc hl
  exact ⟨_, .fresh (decode_passes hp hplan ha (Stop.never_passes _)).1⟩

theorem Gives.carries (h : im.Gives rect o b r) :
    (o.painting r).Paintable (im.rows r o) ∧ b.Carries r o (im.shown r o) := by
  cases h with
  | fresh h =>
    obtain ⟨_, hended, storage, _, rfl⟩ := decode_decoded h
    have hp := paintable_of_finished hended
    rw [written_of_finished hended]
    exact ⟨hp, carries_overwrite_shown hp (.ofStorage storage 0 0 .rgba8 false)⟩
  | @reused _ target _ h =>
    obtain ⟨hplan, hsize, hended⟩ := decodeInto_decoded h
    have hp := paintable_of_finished hended
    rw [(decodeInto_of_le hplan hsize).2.2, onto_of_paintable hp, written_of_finished hended]
    have hcarries := carries_overwrite_shown hp target
    exact ⟨hp, rfl, rfl, rfl, rfl, hcarries.bytes⟩

theorem Gives.size_bytes (h : im.Gives rect o b r) : b.bytes.size = b.byteLength := by
  obtain ⟨hp, hcarries⟩ := h.carries
  rw [hcarries.bytes, size_shown hp]
  simp only [Region.byteLength, Bitmap.byteLength, hcarries.width, hcarries.height,
    hcarries.format]

theorem Gives.plan_ok (h : im.Gives rect o b r) : ∃ stop, im.plan rect o stop = .ok r := by
  cases h with
  | fresh h => exact ⟨_, (decode_decoded h).1⟩
  | reused h => exact ⟨_, (decodeInto_decoded h).1⟩

section

variable {f f' : Feed} {a a' : Allocator} {b' : Bitmap} {r' : Region}

theorem Gives.region (h : (im.fedBy f a).Gives rect o b r) : 0 < o.sampleSize ∧
    ∃ c, im.bounds.intersect? rect = some c ∧ r = im.regionOf c o := by
  obtain ⟨_, hplan⟩ := h.plan_ok
  obtain ⟨hs, _, hc⟩ := Image.plan_ok hplan
  exact ⟨hs, hc⟩

theorem Gives.region_eq (h : (im.fedBy f a).Gives rect o b r)
    (h' : (im.fedBy f' a').Gives rect o' b' r') (hsample : o'.sampleSize = o.sampleSize)
    (hformat : o'.format = o.format) : r' = r := by
  obtain ⟨_, c, hc, rfl⟩ := h.region
  obtain ⟨_, c', hc', rfl⟩ := h'.region
  rw [hc] at hc'
  cases hc'
  simp only [regionOf, hsample, hformat]

theorem Gives.pixelBytes_eq (hf : f.stream.answers = im.feed.stream.answers)
    (h : (im.fedBy f a).Gives rect o b r) {x y : Nat} (hx : x < r.width) (hy : y < r.height) :
    ∃ row p, (o.painting r).sampled (im.rows r o) y = .ok row ∧ row[x]? = some p ∧
      b.pixelBytes x y = Coding.pixel ⟨r.format, o.premultiplied, o.dither⟩ x y p := by
  obtain ⟨hp, hcarries⟩ := h.carries
  have hrows : (im.fedBy f a).rows r o = im.rows r o :=
    congrArg ((o.painting r).sourceRows im.index) hf
  obtain ⟨row, hrow⟩ := hp y hy
  have hin : x < row.size := by
    rw [Painting.size_sampled hrow]
    exact hx
  refine ⟨row, row[x], hrows ▸ hrow, Array.getElem?_eq_getElem hin, ?_⟩
  have hclear : ∀ y < r.height,
      (o.painting r).halt? ((im.fedBy f a).rows r o) .never y = none := fun y hy => hp.halt?_eq hy
  rw [Bitmap.pixelBytes, hcarries.bytes, hcarries.width, hcarries.format]
  exact Painting.extract_band hclear hy hrow hin

end

end Image

namespace Bitmap

variable {b b' : Bitmap} {r : Region}

theorem bytes_eq_flatMap (hsize : b.bytes.size = b.byteLength) :
    b.bytes = (Array.range (b.width * b.height)).flatMap fun i =>
      b.pixelBytes (i % b.width) (i / b.width) := by
  have hpixels (i : Nat) : b.pixelBytes (i % b.width) (i / b.width) =
      b.bytes.extract (i * b.format.bytesPerPixel)
        (i * b.format.bytesPerPixel + b.format.bytesPerPixel) := by
    have hplace : i / b.width * b.width + i % b.width = i := Nat.div_add_mod' i b.width
    rw [pixelBytes, hplace, Nat.succ_mul]
  simp only [hpixels, Packing.flatMap_extract]
  rw [← byteLength_eq, ← hsize, Array.extract_size]

theorem bytes_ext (hwidth : b'.width = b.width) (hheight : b'.height = b.height)
    (hsize : b.bytes.size = b.byteLength) (hsize' : b'.bytes.size = b'.byteLength)
    (h : ∀ x < b.width, ∀ y < b.height, b'.pixelBytes x y = b.pixelBytes x y) :
    b'.bytes = b.bytes := by
  have hpixels : ∀ i ∈ Array.range (b.width * b.height),
      b'.pixelBytes (i % b.width) (i / b.width) = b.pixelBytes (i % b.width) (i / b.width) := by
    intro i hi
    have hlt := Array.mem_range.mp hi
    apply h
    · exact Nat.mod_lt i (Nat.pos_of_mul_pos_right (Nat.zero_lt_of_lt hlt))
    · exact Nat.div_lt_of_lt_mul hlt
  rw [bytes_eq_flatMap hsize, bytes_eq_flatMap hsize', hwidth, hheight, Array.flatMap_def,
    Array.flatMap_def, Array.map_congr_left hpixels]

end Bitmap

theorem Image.Gives.bytes_ext {im im' : Image} {rect : Rect} {o o' : Options} {b b' : Bitmap}
    {r : Region} (h : im.Gives rect o b r) (h' : im'.Gives rect o' b' r)
    (hpixels : ∀ x < r.width, ∀ y < r.height, b'.pixelBytes x y = b.pixelBytes x y) :
    b'.bytes = b.bytes := by
  have hcarries := h.carries.2
  have hcarries' := h'.carries.2
  apply Bitmap.bytes_ext _ _ h.size_bytes h'.size_bytes
  · rw [hcarries.width, hcarries.height]
    exact hpixels
  · rw [hcarries.width, hcarries'.width]
  · rw [hcarries.height, hcarries'.height]

end ImageRegion
