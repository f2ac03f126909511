import ImageRegion.Image.Decode
import ImageRegion.Proofs.Image.Progress
import ImageRegion.Proofs.Pixel.Stored

namespace ImageRegion

def Options.painting (o : Options) (r : Region) : Painting :=
  ⟨r, o.quality, ⟨r.format, o.premultiplied, o.dither⟩⟩

namespace Bitmap

def pixelBytes (b : Bitmap) (x y : Nat) : Array UInt8 :=
  b.bytes.extract ((y * b.width + x) * b.format.bytesPerPixel)
    ((y * b.width + x + 1) * b.format.bytesPerPixel)

/-- The bitmap is the image of a region in which `shown x y` is the pixel at column `x` of row `y`.
The pixels take up all of its bytes. -/
structure Depicts (b : Bitmap) (r : Region) (o : Options) (shown : Nat → Nat → Pixel) : Prop where
  width : b.width = r.width
  height : b.height = r.height
  format : b.format = r.format
  premultiplied : b.premultiplied = o.premultiplied
  size : b.bytes.size = r.byteLength
  pixel : ∀ x < r.width, ∀ y < r.height,
    Coding.Stores ⟨r.format, o.premultiplied, o.dither⟩ x y (shown x y) (b.pixelBytes x y)

theorem bytes_overwrite {b : Bitmap} {written : Array UInt8} (h : written.size = b.byteLength) :
    (b.overwrite written).bytes = written := by
  show (written ++ b.storage.extract written.size b.storage.size).extract 0 b.byteLength = written
  rw [← h, Array.extract_append_left, Array.extract_size]

end Bitmap

namespace Painting

variable {p : Painting} {rows : SourceRows} {stop : Stop}

theorem extract_line {y x : Nat} {row : Array Pixel} (h : p.sampled rows y = .ok row)
    (hx : x < row.size) :
    (p.line rows y).extract (x * p.coding.format.bytesPerPixel)
      ((x + 1) * p.coding.format.bytesPerPixel) = p.coding.pixel x y row[x] := by
  have hin : x < row.zipIdx.size := by simpa using hx
  unfold line
  rw [h, Nat.succ_mul]
  refine (Packing.extract_flatMap row.zipIdx (fun q => p.coding.pixel q.2 y q.1)
    (fun q _ => p.coding.size_pixel q.2 y q.1) hin (a := 0) (Nat.le_refl _)).trans ?_
  rw [Array.getElem_zipIdx, Nat.zero_add]
  exact Array.extract_eq_self_of_le (Nat.le_of_eq (p.coding.size_pixel _ _ _))

theorem extract_band {n y x : Nat} {row : Array Pixel}
    (hclear : ∀ y < n, p.halt? rows stop y = none) (hy : y < n)
    (h : p.sampled rows y = .ok row) (hx : x < row.size) :
    (p.band rows n).extract ((y * p.region.width + x) * p.coding.format.bytesPerPixel)
      ((y * p.region.width + x + 1) * p.coding.format.bytesPerPixel) =
      p.coding.pixel x y row[x] := by
  have hw := size_sampled h
  have hb : (x + 1) * p.coding.format.bytesPerPixel ≤
      p.coding.format.rowBytes p.region.width := Nat.mul_le_mul_right _ (by omega)
  have hk := Packing.extract_flatMap (Array.range n) (p.line rows)
    (k := p.coding.format.rowBytes p.region.width)
    (fun i hi => size_line (hclear i (Array.mem_range.mp hi))) (i := y)
    (a := x * p.coding.format.bytesPerPixel) (by simpa using hy) hb
  rw [Array.getElem_range, extract_line h hx] at hk
  rw [← hk]
  unfold band PixelFormat.rowBytes
  simp only [Nat.add_mul, Nat.mul_assoc, Nat.add_assoc]

end Painting

theorem Bitmap.depicts_overwrite {b : Bitmap} {r : Region} {o : Options} {rows : SourceRows}
    {stop : Stop} {shown : Nat → Nat → Pixel} (hw : b.width = r.width) (hh : b.height = r.height)
    (hf : b.format = r.format) (hp : b.premultiplied = o.premultiplied)
    (hclear : ∀ y < r.height, (o.painting r).halt? rows stop y = none)
    (hs : ∀ y < r.height, (o.painting r).sampled rows y =
      .ok (Array.ofFn fun x : Fin r.width => shown x y)) :
    (b.overwrite ((o.painting r).band rows r.height)).Depicts r o shown := by
  have hsize : ((o.painting r).band rows r.height).size = r.byteLength := by
    rw [Painting.size_band hclear, Nat.mul_comm]
    rfl
  have hbytes := bytes_overwrite (b := b) (hsize.trans (by
    unfold Bitmap.byteLength Region.byteLength
    rw [hw, hh, hf]))
  refine ⟨hw, hh, hf, hp, by rw [hbytes, hsize], fun x hx y hy => ?_⟩
  have hband := Painting.extract_band hclear hy (hs y hy) (x := x) (by simpa using hx)
  rw [Array.getElem_ofFn] at hband
  unfold pixelBytes
  rw [hbytes]
  show Coding.Stores _ x y _ (Array.extract _ ((y * b.width + x) * b.format.bytesPerPixel)
    ((y * b.width + x + 1) * b.format.bytesPerPixel))
  rw [hw, hf]
  exact hband ▸ Coding.stores_pixel _ x y _

namespace Image

def rows (im : Image) (r : Region) (o : Options) : SourceRows :=
  (o.painting r).sourceRows im.index im.feed.stream.answers

theorem paint_progress (im : Image) (r : Region) (o : Options) (stop : Stop) :
    ∃ n, (o.painting r).Progress (im.rows r o) stop (im.paint r o stop) n :=
  (o.painting r).run_progress im.index stop im.feed

theorem plan_eq_ok {im : Image} {rect clamped : Rect} {o : Options} {stop : Stop}
    (hs : 0 < o.sampleSize) (hstop : stop 0 = none)
    (hc : im.bounds.intersect? rect = some clamped)
    (hl : Limits.Admits im.limits.regionBytes (im.regionOf clamped o).byteLength) :
    im.plan rect o stop = .ok (im.regionOf clamped o) := by
  have hcheck := (Limits.check_eq_ok_iff .regionBytes _ _).mpr hl
  unfold plan Limits.checkRegion
  simp only [Nat.ne_of_gt hs, if_false, hstop, hc, hcheck]

variable {im : Image} {rect : Rect} {o : Options} {stop : Stop} {r : Region}
  {shown : Nat → Nat → Pixel}

theorem paint_finished (hstop : ∀ k ≤ r.height, stop k = none)
    (hs : ∀ y < r.height, (o.painting r).sampled (im.rows r o) y =
      .ok (Array.ofFn fun x : Fin r.width => shown x y)) :
    (∀ y < r.height, (o.painting r).halt? (im.rows r o) stop y = none) ∧
      (im.paint r o stop).ending = .finished ∧
      (im.paint r o stop).written = (o.painting r).band (im.rows r o) r.height := by
  have hclear : ∀ y < r.height, (o.painting r).halt? (im.rows r o) stop y = none :=
    fun y hy => Painting.halt?_eq_none.mpr ⟨hstop (y + 1) hy, _, hs y hy⟩
  obtain ⟨n, hn⟩ := im.paint_progress r o stop
  rcases hn.ended with ⟨rfl, he, _⟩ | ⟨hlt, he, _⟩
  · exact ⟨hclear, he, hn.written⟩
  · rw [hclear n hlt] at he
    cases he

theorem decode_depicts (hplan : im.plan rect o stop = .ok r)
    (hstop : ∀ k ≤ r.height, stop k = none)
    (hs : ∀ y < r.height, (o.painting r).sampled (im.rows r o) y =
      .ok (Array.ofFn fun x : Fin r.width => shown x y))
    {storage : Array UInt8} (ha : im.allocator.allot r.byteLength = .storage storage)
    (hsize : r.byteLength ≤ storage.size) :
    ∃ b, (im.decode rect o stop).1.result = .ok (.decoded (b, r)) ∧ b.capacity = storage.size ∧
      b.Depicts r o shown := by
  obtain ⟨hclear, hended, hwritten⟩ := paint_finished hstop hs
  let fresh := Bitmap.ofStorage storage r.width r.height r.format o.premultiplied
  have hdepicts : (fresh.overwrite (im.paint r o stop).written).Depicts r o shown := by
    rw [hwritten]
    exact Bitmap.depicts_overwrite rfl rfl rfl rfl hclear hs
  refine ⟨fresh.overwrite (im.paint r o stop).written, ?_, ?_, hdepicts⟩
  · simp only [decode, hplan, ha, hended, Ending.result, fresh]
  · apply Bitmap.capacity_overwrite
    rw [hwritten, Painting.size_band hclear, Nat.mul_comm]
    exact hsize

theorem decodeInto_depicts (hplan : im.plan rect o stop = .ok r)
    (hstop : ∀ k ≤ r.height, stop k = none)
    (hs : ∀ y < r.height, (o.painting r).sampled (im.rows r o) y =
      .ok (Array.ofFn fun x : Fin r.width => shown x y))
    {target : Bitmap} (hsize : r.byteLength ≤ target.capacity) :
    (im.decodeInto rect o target stop).1.result = .ok (.decoded r) ∧
      (im.decodeInto rect o target stop).2.1.capacity = target.capacity ∧
      (im.decodeInto rect o target stop).2.1.Depicts r o shown := by
  obtain ⟨hclear, hended, hwritten⟩ := paint_finished hstop hs
  let reused : Bitmap := { target with
    width := r.width, height := r.height, format := r.format, premultiplied := o.premultiplied }
  have hconf : target.reconfigure r.width r.height r.format o.premultiplied = .ok reused :=
    if_neg (Nat.not_lt_of_le hsize)
  have hdepicts : (reused.overwrite (im.paint r o stop).written).Depicts r o shown := by
    rw [hwritten]
    exact Bitmap.depicts_overwrite rfl rfl rfl rfl hclear hs
  have honto : (im.decodeInto rect o target stop).2.1 =
      (reused.overwrite (im.paint r o stop).written).touch := by
    simp only [decodeInto, hplan, hconf, Painted.onto, hended]
  refine ⟨?_, ?_, ?_⟩
  · simp only [decodeInto, hplan, hconf, hended, Ending.result]
  · rw [honto]
    apply Bitmap.capacity_overwrite
    rw [hwritten, Painting.size_band hclear, Nat.mul_comm]
    exact hsize
  · rw [honto]
    exact ⟨hdepicts.width, hdepicts.height, hdepicts.format, hdepicts.premultiplied,
      hdepicts.size, hdepicts.pixel⟩

end Image

end ImageRegion
