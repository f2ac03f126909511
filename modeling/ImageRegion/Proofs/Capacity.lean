import ImageRegion.Proofs.Expansion
import ImageRegion.Proofs.Generations
import ImageRegion.Proofs.Geometry.Words
import ImageRegion.Proofs.Image.Pacing

namespace ImageRegion

theorem Image.imageBytes?_of_plan {im : Image} {rect : Rect} {o : Options} {stop : Stop}
    {r : Region} (h : im.plan rect o stop = .ok r) :
    r.format.imageBytes? r.width r.height = some r.byteLength := by
  obtain ⟨hs, _, c, hc, rfl⟩ := plan_ok h
  obtain ⟨hwidth, hheight⟩ := size_regionOf_lt (clamped_of_intersect? hc) hs
  exact (PixelFormat.imageBytes?_eq _ hwidth hheight).1

namespace Bitmap

variable {b b' : Bitmap}

inductive IsNew : Bitmap → Prop
  | blank {width height : Nat} {format : PixelFormat} {b : Bitmap} (hw : width < 0x100000000)
      (h : blank width height format = .ok b) : IsNew b
  | decoded {im : Image} {rect : Rect} {o : Options} {stop : Stop} {b : Bitmap} {r : Region}
      (h : (im.decode rect o stop).1.result = .ok (.decoded (b, r))) : IsNew b

inductive Change
  | decode (call : Reuse)
  | notify
  | write (start : Nat) (bytes : Array UInt8)

def Change.on (b : Bitmap) : Change → Bitmap
  | .decode call => call.on b
  | .notify => b.touch
  | .write start bytes => b.write start bytes

def changed (b : Bitmap) (changes : List Change) : Bitmap := changes.foldl Change.on b

structure Holds (b : Bitmap) : Prop where
  fits : b.byteLength ≤ b.capacity
  length : b.format.imageBytes? b.width b.height = some b.byteLength

structure Retains (b b' : Bitmap) : Prop where
  width : b'.width = b.width
  height : b'.height = b.height
  format : b'.format = b.format
  capacity : b'.capacity = b.capacity

theorem Holds.retained (h : b.Holds) (hb : b.Retains b') : b'.Holds := by
  have hlength : b'.byteLength = b.byteLength := by
    simp only [byteLength, hb.width, hb.height, hb.format]
  constructor
  · rw [hlength, hb.capacity]
    exact h.fits
  · rw [hlength, hb.width, hb.height, hb.format]
    exact h.length

theorem retains_touch (b : Bitmap) : b.Retains b.touch := ⟨rfl, rfl, rfl, rfl⟩

theorem retains_overwrite {written : Array UInt8} (h : written.size ≤ b.capacity) :
    b.Retains (b.overwrite written) := ⟨rfl, rfl, rfl, b.capacity_overwrite written h⟩

theorem retains_write (b : Bitmap) (start : Nat) (bytes : Array UInt8) :
    b.Retains (b.write start bytes) := by
  unfold write
  dsimp only
  split
  · refine ⟨rfl, rfl, rfl, ?_⟩
    simp only [capacity, Array.size_append, Array.size_extract] at *
    omega
  · exact ⟨rfl, rfl, rfl, rfl⟩

theorem retains_onto {painted : Painted} (h : painted.written.size ≤ b.capacity) :
    b.Retains (painted.onto b) := by
  have hover := retains_overwrite h
  unfold Painted.onto
  split
  · exact hover
  · exact ⟨hover.width, hover.height, hover.format, hover.capacity⟩

theorem holds_of_blank {width height : Nat} {format : PixelFormat} (hw : width < 0x100000000)
    (h : blank width height format = .ok b) : b.Holds := by
  have hcapacity := capacity_blank h
  unfold blank at h
  split at h
  · cases h
  next bytes hbytes =>
    split at h
    · cases h
    · cases h
      obtain ⟨rfl, hlt⟩ := Word.product64_eq_ok_iff.mp hbytes
      refine ⟨Nat.le_of_eq hcapacity.symm, ?_⟩
      have hrow : format.rowBytes? width = some (format.rowBytes width) := by
        refine Word.unsigned64?_natCast ?_
        cases format <;> simp only [PixelFormat.bytesPerPixel] <;> omega
      dsimp only [PixelFormat.imageBytes?]
      rw [hrow, Option.bind_eq_bind, Option.bind_some]
      exact Word.unsigned64?_natCast hlt

theorem holds_of_decoded {im : Image} {rect : Rect} {o : Options} {stop : Stop} {r : Region}
    (h : (im.decode rect o stop).1.result = .ok (.decoded (b, r))) : b.Holds := by
  obtain ⟨hplan, _, storage, _, hb⟩ := Image.decode_decoded h
  have hsize := (Image.Gives.fresh h).size_bytes
  rw [bytes, Array.size_extract] at hsize
  refine ⟨?_, ?_⟩
  · simp only [capacity]
    omega
  · rw [hb]
    exact Image.imageBytes?_of_plan hplan

theorem holds_of_isNew (h : b.IsNew) : b.Holds := by
  cases h with
  | blank hw h => exact holds_of_blank hw h
  | decoded h => exact holds_of_decoded h

theorem holds_shaped {im : Image} {rect : Rect} {o : Options} {stop : Stop} {r : Region}
    (hplan : im.plan rect o stop = .ok r) (hsize : r.byteLength ≤ b.capacity) :
    (b.shaped r o).Holds := ⟨hsize, Image.imageBytes?_of_plan hplan⟩

theorem retains_decodeInto {im : Image} {rect : Rect} {o : Options} {stop : Stop} {r : Region}
    (hplan : im.plan rect o stop = .ok r) (hsize : r.byteLength ≤ b.capacity) :
    (b.shaped r o).Retains (im.decodeInto rect o b stop).2.1 := by
  rw [(Image.decodeInto_of_le hplan hsize).2.2]
  exact retains_onto (Nat.le_trans (im.written_le r o stop) hsize)

theorem Holds.decodeInto (h : b.Holds) (im : Image) (rect : Rect) (o : Options) (stop : Stop) :
    (im.decodeInto rect o b stop).2.1.Holds ∧
      (im.decodeInto rect o b stop).2.1.capacity = b.capacity := by
  cases hplan : im.plan rect o stop with
  | error halt =>
    have hkept : (im.decodeInto rect o b stop).2.1 = b := by rw [Image.decodeInto, hplan]
    rw [hkept]
    exact ⟨h, rfl⟩
  | ok r =>
    by_cases hsize : r.byteLength ≤ b.capacity
    · have hpainted := retains_decodeInto hplan hsize
      exact ⟨(holds_shaped hplan hsize).retained hpainted, hpainted.capacity⟩
    · have hconf := reconfigure_of_lt o (Nat.lt_of_not_le hsize)
      have hkept : (im.decodeInto rect o b stop).2.1 = b := by
        simp only [Image.decodeInto, hplan, hconf]
      rw [hkept]
      exact ⟨h, rfl⟩

theorem Holds.step (h : b.Holds) (change : Change) :
    (change.on b).Holds ∧ (change.on b).capacity = b.capacity := by
  cases change with
  | decode call => exact h.decodeInto call.image call.rect call.options call.stop
  | notify => exact ⟨h.retained b.retains_touch, rfl⟩
  | write start bytes =>
    have hwritten := b.retains_write start bytes
    exact ⟨h.retained hwritten, hwritten.capacity⟩

theorem Holds.changed (h : b.Holds) (changes : List Change) :
    (b.changed changes).Holds ∧ (b.changed changes).capacity = b.capacity := by
  induction changes generalizing b with
  | nil => exact ⟨h, rfl⟩
  | cons change changes ih =>
    obtain ⟨hone, hcapacity⟩ := h.step change
    obtain ⟨hall, hsame⟩ := ih hone
    exact ⟨hall, hsame.trans hcapacity⟩

theorem flatten_rows (b : Bitmap) : ((Array.range b.height).map fun y =>
    b.bytes.extract (y * b.stride) (y * b.stride + b.stride)).flatten = b.bytes := by
  have hlength : b.height * b.stride = b.byteLength := Nat.mul_comm ..
  rw [← Array.flatMap_def, Packing.flatMap_extract, hlength, bytes, Array.extract_extract]
  simp only [Nat.zero_add, Nat.min_self]

theorem row_end_le_size (h : b.byteLength ≤ b.capacity) {y : Nat} (hy : y < b.height) :
    y * b.stride + b.stride ≤ b.bytes.size := by
  rw [size_bytes h, ← byteLength_eq]
  exact Word.row_end_le b.stride hy

theorem storage_always_suffices (hnew : b.IsNew) (changes : List Change) :
    let c := b.changed changes
    c.capacity = b.capacity ∧
    c.width * c.height * c.format.bytesPerPixel ≤ c.capacity ∧
    c.format.imageBytes? c.width c.height = some (c.width * c.height * c.format.bytesPerPixel) ∧
    c.bytes.size = c.width * c.height * c.format.bytesPerPixel ∧
    (∀ y < c.height, y * c.stride + c.stride ≤ c.bytes.size ∧
      c.row? y = .ok (c.bytes.extract (y * c.stride) (y * c.stride + c.stride))) ∧
    (∀ y, (∃ breach, c.row? y = .error breach) ↔ c.height ≤ y) ∧
    ∃ rows : Array (Array UInt8), rows.size = c.height ∧
      (∀ y (hy : y < rows.size), c.row? y = .ok rows[y]) ∧ rows.flatten = c.bytes := by
  intro c
  obtain ⟨⟨hfits, hlength⟩, hcapacity⟩ := (holds_of_isNew hnew).changed changes
  have hrow (y : Nat) (hy : y < c.height) := row?_eq_extract_bytes (b := c) hy
  rw [← byteLength_eq]
  refine ⟨hcapacity, hfits, hlength, (size_bytes hfits).trans (byteLength_eq c).symm,
    fun y hy => ⟨row_end_le_size hfits hy, hrow y hy⟩, fun y => ?_, ?_⟩
  · unfold row?
    split
    next hy =>
      refine iff_of_false ?_ (Nat.not_le_of_lt hy)
      rintro ⟨_, h⟩
      cases h
    next hy => exact iff_of_true ⟨_, rfl⟩ (Nat.le_of_not_lt hy)
  · refine ⟨_, ?_, fun y hy => ?_, flatten_rows c⟩
    · rw [Array.size_map, Array.size_range]
    · rw [Array.size_map, Array.size_range] at hy
      rw [hrow y hy, Array.getElem_map, Array.getElem_range]

theorem storage_always_suffices_on_stamp :
    let b : Bitmap := ⟨3, 3, .rgba8, true, 0, .replicate 36 0⟩
    let c := b.changed
      [.decode ⟨Image.stamp, ⟨1, 0, 3, 2⟩, .standard, .always .cancelled⟩,
        .decode ⟨Image.stamp, ⟨0, 0, 3, 2⟩, .standard, .never⟩, .notify, .write 4 #[1, 2, 3]]
    b.IsNew ∧ c.capacity = 36 ∧ c.bytes.size = 24 ∧ ∃ breach, c.row? 2 = .error breach := by
  intro b c
  have hblank : blank 3 3 .rgba8 = .ok b := rfl
  have hnew : b.IsNew := .blank (by decide) hblank
  have hplan : Image.stamp.plan ⟨0, 0, 3, 2⟩ .standard .never =
      .ok ⟨3, 2, .rgba8, ⟨0, 0, 3, 2⟩, 1, .png⟩ := rfl
  have hkept : (Image.stamp.decodeInto ⟨1, 0, 3, 2⟩ .standard b (.always .cancelled)).2.1 = b :=
    rfl
  have hc : c = (Image.stamp.decodeInto ⟨0, 0, 3, 2⟩ .standard b .never).2.1.touch.write 4
      #[1, 2, 3] := by
    simp only [c, changed, List.foldl_cons, List.foldl_nil, Change.on, Reuse.on, hkept]
  have hpainted := retains_decodeInto (b := b) hplan (by decide)
  have hwritten := retains_write (Image.stamp.decodeInto ⟨0, 0, 3, 2⟩ .standard b .never).2.1.touch
    4 #[1, 2, 3]
  rw [← hc] at hwritten
  have hwidth : c.width = 3 := hwritten.width.trans hpainted.width
  have hheight : c.height = 2 := hwritten.height.trans hpainted.height
  have hformat : c.format = .rgba8 := hwritten.format.trans hpainted.format
  obtain ⟨hcapacity, _, _, hsize, _, hpanics, _⟩ := storage_always_suffices hnew _
  refine ⟨hnew, hcapacity, ?_, (hpanics 2).mpr (Nat.le_of_eq hheight)⟩
  rw [hwidth, hheight, hformat] at hsize
  exact hsize

end Bitmap

end ImageRegion
