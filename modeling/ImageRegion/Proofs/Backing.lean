import ImageRegion.Proofs.Admission
import ImageRegion.Proofs.Image.Recoding
import ImageRegion.Raster

namespace ImageRegion

theorem narrow_eq_rescale {v : Nat} (h : v ≤ 65535) : rescale 65535 v = narrow v := by
  simp only [rescale, narrow, Nat.min_eq_left h]
  congr 1
  omega

theorem rescale_widened (b : UInt8) : rescale 65535 (b.toNat * 257) = b := by
  have hb := b.toNat_lt
  rw [narrow_eq_rescale (by omega), narrow,
    show (b.toNat * 257 + 128) / 257 = b.toNat by omega, UInt8.ofNat_toNat]

theorem rescale_byte (b : UInt8) : rescale 255 b.toNat = b := by
  rw [rescale_255 (Nat.le_of_lt_succ b.toNat_lt), UInt8.ofNat_toNat]

theorem bigEndian16_le (high low : UInt8) : bigEndian16 high low ≤ 65535 := by
  have hhigh := high.toNat_lt
  have hlow := low.toNat_lt
  simp only [bigEndian16]
  omega

namespace Raster

variable {r : Raster}

def value (r : Raster) (i : Nat) : Nat :=
  if r.isDeep then bigEndian16 (r.byteAt (2 * i)) (r.byteAt (2 * i + 1)) else (r.byteAt i).toNat

def maxval (r : Raster) : Nat := if r.isDeep then 65535 else 255

def wide (r : Raster) (i c : Nat) : Nat :=
  if c < r.channels.count then
    if r.isDeep then r.value (i * r.channels.count + c)
    else r.value (i * r.channels.count + c) * 257
  else 65535

def pixelAt (r : Raster) (x y : Nat) : Pixel := r.pixels.getD (y * r.width + x) .clear

theorem rescale_value (r : Raster) (i : Nat) : rescale r.maxval (r.value i) = r.sampleAt i := by
  unfold maxval value sampleAt
  cases r.isDeep with
  | true => exact narrow_eq_rescale (bigEndian16_le _ _)
  | false => exact rescale_byte _

theorem rescale_wide {i c : Nat} (hc : c < r.channels.count) :
    rescale 65535 (r.wide i c) = r.sampleAt (i * r.channels.count + c) := by
  rw [wide, if_pos hc, ← rescale_value]
  unfold maxval value
  cases r.isDeep with
  | true => rfl
  | false =>
    simp only [Bool.false_eq_true, if_false]
    rw [rescale_widened, rescale_byte]

theorem rescale_wide_of_le {i c : Nat} (hc : r.channels.count ≤ c) :
    rescale 65535 (r.wide i c) = 255 := by
  rw [wide, if_neg (Nat.not_lt_of_le hc)]
  rfl

theorem index_lt {x y : Nat} (hx : x < r.width) (hy : y < r.height) :
    y * r.width + x < r.width * r.height := by
  have hrow := Word.row_end_le r.width hy
  omega

theorem pixelAt_eq {x y : Nat} (hx : x < r.width) (hy : y < r.height) :
    r.pixelAt x y =
      r.channels.pixel fun c => r.sampleAt ((y * r.width + x) * r.channels.count + c) := by
  unfold pixelAt pixels
  rw [Array.getD_eq_getD_getElem?, Array.getElem?_ofFn, dif_pos (index_lt hx hy),
    Option.getD_some]

/-- The ways to store a raster: its bytes behind a header, its samples widened behind a header, or
in an encoding whose decoder gives its pixels back. -/
inductive Stored (r : Raster) : Stream → Prop
  | pixmap {file : Array UInt8} {h : Netpbm.Header} (hlength : file.size < Word.greatest)
    (hbegins : h.Begins file.toList) (hcolour : r.channels = .rgb) (hchannels : h.channels = 3)
    (hwidth : h.width = r.width) (hheight : h.height = r.height) (hmaxval : h.maxval = r.maxval)
    (hsamples : ∀ i < r.width * r.height * r.bytesPerPixel,
      file.getD (h.dataOffset + i) 0 = r.byteAt i) : Stored r (.ofBytes file)
  | farbfeld {file : Array UInt8} (hlength : file.size < Word.greatest)
    (hbegins : Farbfeld.Header.Begins ⟨r.width, r.height⟩ file.toList)
    (hcolour : r.channels = .rgb ∨ r.channels = .rgba)
    (hsamples : ∀ i < r.width * r.height, ∀ c < 4,
      bigEndian16 (file.getD (16 + i * 8 + 2 * c) 0) (file.getD (16 + i * 8 + 2 * c + 1) 0) =
        r.wide i c) : Stored r (.ofBytes file)
  | tiled {s : Stream} {e : Encoding} {native : PixelFormat} (hmemory : s.InMemory)
    (hlength : s.length < Word.greatest) (hencoding : e.hasRandomAccess = false)
    (hmagic : Encoding.detect? s.start = some e)
    (hdecoded : s.content.decoded e = .whole r.width r.height native r.pixels) : Stored r s

section Pixmap

variable {file : Array UInt8} {h : Netpbm.Header}

theorem bytesPerSample_eq (hmaxval : h.maxval = r.maxval) :
    h.bytesPerSample = r.bytesPerSample := by
  unfold Netpbm.Header.bytesPerSample bytesPerSample
  rw [hmaxval, maxval]
  cases r.isDeep <;> rfl

theorem sampleAt_pixmap (hmaxval : h.maxval = r.maxval)
    (hsamples : ∀ i < r.width * r.height * (3 * r.bytesPerSample),
      file.getD (h.dataOffset + i) 0 = r.byteAt i)
    {i k : Nat} (hi : i < r.width * r.height) (hk : k < 3) :
    h.sampleAt ((Content.ofBytes file).slice (h.dataOffset + i * (3 * r.bytesPerSample))
      (3 * r.bytesPerSample)) (k * r.bytesPerSample) = r.sampleAt (i * 3 + k) := by
  have hbyte (j : Nat) (hj : j < 3 * r.bytesPerSample) :
      ((Content.ofBytes file).slice (h.dataOffset + i * (3 * r.bytesPerSample))
        (3 * r.bytesPerSample)).getD j 0 = r.byteAt (i * (3 * r.bytesPerSample) + j) := by
    have hstop := Nat.mul_le_mul_right (3 * r.bytesPerSample) hi
    rw [Nat.succ_mul] at hstop
    rw [Content.getD_slice _ _ hj, ← hsamples _ (by omega), ← Nat.add_assoc]
    rfl
  rw [← rescale_value]
  unfold Netpbm.Header.sampleAt
  rw [hmaxval, bytesPerSample_eq hmaxval]
  congr 1
  unfold value
  unfold bytesPerSample at hbyte ⊢
  cases hdeep : r.isDeep with
  | true =>
    simp only [hdeep, if_true] at hbyte ⊢
    rw [hbyte _ (by omega), hbyte _ (by omega)]
    congr 2 <;> omega
  | false =>
    simp only [hdeep, Bool.false_eq_true, if_false, Nat.reduceEqDiff] at hbyte ⊢
    rw [hbyte _ (by omega)]
    congr 2
    omega

theorem pixel_pixmap (hcolour : r.channels = .rgb) (hchannels : h.channels = 3)
    (hwidth : h.width = r.width) (hmaxval : h.maxval = r.maxval)
    (hsamples : ∀ i < r.width * r.height * r.bytesPerPixel,
      file.getD (h.dataOffset + i) 0 = r.byteAt i)
    {x y : Nat} (hx : x < r.width) (hy : y < r.height) :
    r.pixelAt x y = h.pixel (.ofBytes file) x y := by
  have hbytes := bytesPerSample_eq hmaxval
  have hpixel : h.pixelBytes = 3 * r.bytesPerSample := by
    rw [Netpbm.Header.pixelBytes, hchannels, hbytes]
  have hcount : r.bytesPerPixel = 3 * r.bytesPerSample := by
    rw [bytesPerPixel, hcolour]
    rfl
  rw [hcount] at hsamples
  have hsample (k : Nat) (hk : k < 3) := sampleAt_pixmap hmaxval hsamples (index_lt hx hy) hk
  have hfirst := hsample 0 (by decide)
  have hsecond := hsample 1 (by decide)
  have hthird := hsample 2 (by decide)
  rw [pixelAt_eq hx hy, hcolour, Netpbm.Header.pixel, Netpbm.Header.pixelAt, hchannels, hwidth,
    hpixel, hbytes]
  rw [Nat.zero_mul] at hfirst
  rw [Nat.one_mul] at hsecond
  simp only [Nat.reduceEqDiff, if_false, Nat.zero_add]
  rw [hfirst, hsecond, hthird]
  rfl

end Pixmap

section Farbfeld

variable {file : Array UInt8}

theorem sampleAt_farbfeld
    (hsamples : ∀ i < r.width * r.height, ∀ c < 4,
      bigEndian16 (file.getD (16 + i * 8 + 2 * c) 0) (file.getD (16 + i * 8 + 2 * c + 1) 0) =
        r.wide i c) {i c : Nat} (hi : i < r.width * r.height) (hc : c < 4) :
    Farbfeld.sampleAt ((Content.ofBytes file).slice (16 + i * 8) 8) (2 * c) =
      rescale 65535 (r.wide i c) := by
  unfold Farbfeld.sampleAt
  rw [Content.getD_slice _ _ (by omega), Content.getD_slice _ _ (by omega), ← hsamples i hi c hc]
  rfl

theorem pixel_farbfeld (hcolour : r.channels = .rgb ∨ r.channels = .rgba)
    (hsamples : ∀ i < r.width * r.height, ∀ c < 4,
      bigEndian16 (file.getD (16 + i * 8 + 2 * c) 0) (file.getD (16 + i * 8 + 2 * c + 1) 0) =
        r.wide i c) {x y : Nat} (hx : x < r.width) (hy : y < r.height) :
    r.pixelAt x y = Farbfeld.Header.pixel ⟨r.width, r.height⟩ (.ofBytes file) x y := by
  have hsample (c : Nat) (hc : c < 4) := sampleAt_farbfeld hsamples (index_lt hx hy) hc
  have h0 := hsample 0 (by decide)
  have h1 := hsample 1 (by decide)
  have h2 := hsample 2 (by decide)
  have h3 := hsample 3 (by decide)
  rw [pixelAt_eq hx hy]
  unfold Farbfeld.Header.pixel Farbfeld.pixelAt
  simp only [Farbfeld.headerBytes, Farbfeld.pixelBytes, Nat.zero_add]
  rcases hcolour with hcolour | hcolour
  · have hcount : r.channels.count = 3 := by
      rw [hcolour]
      rfl
    rw [rescale_wide (by omega)] at h0 h1 h2
    rw [rescale_wide_of_le (by omega)] at h3
    rw [h0, h1, h2, h3, hcolour]
    rfl
  · have hcount : r.channels.count = 4 := by
      rw [hcolour]
      rfl
    rw [rescale_wide (by omega)] at h0 h1 h2 h3
    rw [h0, h1, h2, h3, hcolour]
    rfl

end Farbfeld

end Raster

theorem Index.rowOf_of_holds {index : Index} {s : Stream} {P : Nat → Nat → Pixel}
    (hs : s.InMemory) (hlength : s.length < 0x10000000000000000)
    (hdata : index.dataEnd ≤ s.length) (hP : index.Holds s.content P) {x count y : Nat}
    (hx : x + count ≤ index.width) (hy : y < index.height) :
    index.rowOf s.answers x count y = .ok (Array.ofFn fun i : Fin count => P (x + i) y) := by
  have hrow : ∃ row, index.rowOf s.answers x count y = .ok row := by
    cases index with
    | pnm h => exact Answers.row_ok hs hlength hdata hx hy
    | farbfeld h => exact Answers.row_ok hs hlength hdata hx hy
    | tiled m => exact ⟨_, if_neg (not_or.mpr ⟨Nat.not_le_of_lt hy, Nat.not_lt_of_le hx⟩)⟩
  obtain ⟨row, hrow⟩ := hrow
  rw [hrow, rowOf_eq_of_holds hP hx hy hrow]

theorem Index.build_tiled {e : Encoding} {s : Stream} {config : Config} {width height : Nat}
    {native : PixelFormat} {pixels : Array Pixel} (hs : s.InMemory)
    (hencoding : e.hasRandomAccess = false)
    (hdecoded : s.content.decoded e = .whole width height native pixels)
    (hlimits : config.limits = .none) (ht : 0 < config.tileSize) (hwidth : 0 < width)
    (hheight : 0 < height) (harea : width * height < 0x100000000) :
    ∃ t event, build e s config =
      .ok (.tiled (.ofPixels width height native config.tileSize pixels), t, event) := by
  have hbytes : Mosaic.indexBytes width height = .ok (width * height * 4) := by
    unfold Mosaic.indexBytes
    rw [Word.product64_eq_ok_iff.mpr ⟨rfl, by omega⟩]
    exact Word.product64_eq_ok_iff.mpr ⟨rfl, by omega⟩
  have haccepted : admitTiles config.limits e width height = .ok () := by
    unfold admitTiles
    rw [hlimits, if_neg (by omega)]
    simp only [hbytes]
    rfl
  have hseek : s.seek (.start (0 : Nat)) = (.ok 0, s.turned 0) := hs.seek_start (by decide)
  have htile : build e s config = tile e s config := by
    cases e with
    | pnm => cases hencoding
    | farbfeld => cases hencoding
    | _ => rfl
  rw [htile, tile, hseek]
  dsimp only
  rw [show (s.turned 0).content = s.content from rfl, hdecoded]
  dsimp only
  rw [haccepted, Mosaic.checkCuts_eq_ok ht harea]
  exact ⟨_, _, rfl⟩

structure Index.Bears (index : Index) (r : Raster) (s : Stream) : Prop where
  width : index.width = r.width
  height : index.height = r.height
  dataEnd : index.dataEnd ≤ s.length
  holds : index.Holds s.content r.pixelAt

structure Raster.Fits (r : Raster) : Prop where
  width : 0 < r.width
  height : 0 < r.height
  area : r.width * r.height < 0x100000000

namespace Raster

variable {r : Raster} {s : Stream} {config : Config} {v : Viewer}

theorem Stored.inMemory (h : r.Stored s) : s.InMemory := by
  cases h with
  | pixmap | farbfeld => exact Stream.inMemory_ofBytes _
  | tiled hmemory => exact hmemory

theorem Stored.length_lt (h : r.Stored s) : s.length < Word.greatest := by
  cases h with
  | pixmap hlength | farbfeld hlength => exact hlength
  | tiled _ hlength => exact hlength

theorem Fits.width_lt (h : r.Fits) : r.width < 0x100000000 :=
  Nat.lt_of_le_of_lt (Nat.le_mul_of_pos_right _ h.height) h.area

theorem Fits.height_lt (h : r.Fits) : r.height < 0x100000000 :=
  Nat.lt_of_le_of_lt (Nat.le_mul_of_pos_left _ h.width) h.area

theorem Stored.opens (h : r.Stored s) (hr : r.Fits) (hlimits : config.limits = .none)
    (ht : 0 < config.tileSize) :
    ∃ e index t, (Viewer.openStream s config).1 = .ok (.ofIndex e config index t) ∧
      index.Bears r s := by
  cases h with
  | @pixmap file h hlength hbegins hcolour hchannels hwidth hheight hmaxval hsamples =>
    have hwords : h.width < 0x100000000 ∧ h.height < 0x100000000 := by
      rw [hwidth, hheight]
      exact ⟨hr.width_lt, hr.height_lt⟩
    have hneeded := ((Netpbm.Header.finds_iff (by rwa [Array.length_toList])).mpr
      ⟨hwords.1, hwords.2, hbegins⟩).2.2
    rw [Array.length_toList] at hneeded
    obtain ⟨hopen, _⟩ := (Viewer.opens_pnm_iff hlength hlimits).mpr
      ⟨h, ⟨hwords.1, hwords.2, hbegins⟩, rfl⟩
    refine ⟨_, _, _, hopen, hwidth, hheight, Netpbm.Header.data_le hneeded hlength, ?_⟩
    refine ⟨.inr hchannels, fun x hx y hy => ?_⟩
    rw [hwidth] at hx
    rw [hheight] at hy
    exact pixel_pixmap hcolour hchannels hwidth hmaxval hsamples hx hy
  | @farbfeld file hlength hbegins hcolour hsamples =>
    have hneeded := ((Farbfeld.Header.finds_iff (by rwa [Array.length_toList])).mpr hbegins).2.2
    rw [Array.length_toList] at hneeded
    obtain ⟨hopen, _⟩ := (Viewer.opens_farbfeld_iff hlength hlimits).mpr ⟨_, hbegins, rfl⟩
    refine ⟨_, _, _, hopen, rfl, rfl, Farbfeld.Header.data_le hneeded hlength, ?_⟩
    exact fun x hx y hy => pixel_farbfeld hcolour hsamples hx hy
  | @tiled _ e native hmemory hlength hencoding hmagic hdecoded =>
    -- Without limits, the words of cutting tiles are all that could still be too small.
    obtain ⟨t, event, hbuild⟩ := Index.build_tiled
      (hmemory.turned (min s.length Encoding.magicLength)) hencoding hdecoded hlimits ht hr.width
      hr.height hr.area
    let mosaic := Mosaic.ofPixels r.width r.height native config.tileSize r.pixels
    refine ⟨e, .tiled mosaic, t, ?_, rfl, rfl, Nat.zero_le _, ?_⟩
    · rw [Viewer.openStream_eq hmemory hlength hlimits, hmagic]
      dsimp only
      rw [hbuild]
      rfl
    · exact ⟨r.pixels, ht, r.size_pixels, rfl, fun _ _ _ _ => rfl⟩

theorem Stored.bears (h : r.Stored s) (hr : r.Fits) (ht : 0 < config.tileSize)
    (hopen : (Viewer.openStream s config).1 = .ok v) : v.image.index.Bears r s := by
  have hlimits : config.unlimited.limits = .none := rfl
  obtain ⟨e, index, t, hopen', hbears⟩ := h.opens hr hlimits ht
  have hv := Except.ok.inj ((Viewer.openStream_unlimited hopen).symm.trans hopen')
  rw [show v.image.index = index from congrArg (fun v => v.image.index) hv]
  exact hbears

section Rows

variable {im im' : Image} {c : Rect}

theorem Stored.rowOf (h : r.Stored s) (hbears : im.index.Bears r s)
    (ha : im.feed.stream.answers = s.answers) (hc : im.Clamped c) {j : Nat}
    (hj : j < c.bottom.toNat) :
    im.index.rowOf im.feed.stream.answers c.left.toNat c.width j =
      .ok (Array.ofFn fun i : Fin c.width => r.pixelAt (c.left.toNat + i) j) := by
  have hl := hc.left
  have hw := hc.width
  have hr := hc.right
  have hb := hc.bottom
  have hword : s.length < 0x10000000000000000 := Word.lt_of_lt_greatest h.length_lt
  rw [ha]
  apply Index.rowOf_of_holds h.inMemory hword hbears.dataEnd hbears.holds
  · simp only [Image.width] at hr
    simp only [Rect.width]
    omega
  · simp only [Image.height] at hb
    omega

theorem Stored.echoes {t : Stream} (hs : r.Stored s) (ht : r.Stored t)
    (hbears : im.index.Bears r s) (hbears' : im'.index.Bears r t)
    (ha : im.feed.stream.answers = s.answers) (ha' : im'.feed.stream.answers = t.answers)
    (hc : im.Clamped c) : im'.Echoes im c := by
  have hc' : im'.Clamped c := by
    have hwidth : im'.width = im.width := hbears'.width.trans hbears.width.symm
    have hheight : im'.height = im.height := hbears'.height.trans hbears.height.symm
    exact ⟨hc.left, hc.width, hwidth ▸ hc.right, hc.top, hc.height, hheight ▸ hc.bottom,
      hc.columns, hc.rows⟩
  intro j _ hj
  rw [hs.rowOf hbears ha hc hj, ht.rowOf hbears' ha' hc' hj]

theorem Stored.reads (h : r.Stored s) (hbears : im.index.Bears r s)
    (ha : im.feed.stream.answers = s.answers) (hc : im.Clamped c) {j : Nat}
    (hj : j < c.bottom.toNat) : im.Reads c j := by
  refine ⟨Array.ofFn fun i : Fin c.width => r.pixelAt (c.left.toNat + i) j, ?_⟩
  rw [Index.readRow_fst]
  exact h.rowOf hbears ha hc hj

end Rows

/-- However a raster is stored, it opens, and requests that name a format are answered alike. -/
theorem pictures_of_stored_agree (hr : r.Fits) :
    (∀ s config, r.Stored s → config.limits = .none → 0 < config.tileSize →
      ∃ v, (Viewer.openStream s config).1 = .ok v ∧ v.width = r.width ∧ v.height = r.height) ∧
    ∀ s t c d v w, r.Stored s → r.Stored t → 0 < c.tileSize → 0 < d.tileSize →
      c.allocator = d.allocator → c.limits.regionBytes = d.limits.regionBytes →
      (Viewer.openStream s c).1 = .ok v → (Viewer.openStream t d).1 = .ok w →
      ∀ f g : Feed, f.stream.answers = s.answers → g.stream.answers = t.answers →
        (v.fedBy f c.allocator).ShowsAs (w.fedBy g d.allocator) ∧
        ∀ rect clamped o, (Rect.ofSize r.width r.height).intersect? rect = some clamped →
          o.format.isSome = true → 0 < o.sampleSize →
          Limits.Admits c.limits.regionBytes (v.image.regionOf clamped o).byteLength →
          ∃ bytes, (v.fedBy f c.allocator).image.Delivers clamped o bytes ∧
            (w.fedBy g d.allocator).image.Delivers clamped o bytes := by
  constructor
  · intro s config hs hlimits ht
    obtain ⟨e, index, t, hopen, hbears⟩ := hs.opens hr hlimits ht
    exact ⟨_, hopen, hbears.width, hbears.height⟩
  · intro s t c d v w hs ht hc hd hallocator hcap hv hw f g hf hg
    let x := v.fedBy f c.allocator
    let y := w.fedBy g d.allocator
    have hbears : x.image.index.Bears r s := hs.bears (v := v) hr hc hv
    have hbears' : y.image.index.Bears r t := ht.bears (v := w) hr hd hw
    have hlimits : x.image.limits = c.limits :=
      (Viewer.opened_of_openStream (Prod.ext hv rfl)).limits
    have hlimits' : y.image.limits = d.limits :=
      (Viewer.opened_of_openStream (Prod.ext hw rfl)).limits
    have hwidth : y.image.width = x.image.width := hbears'.width.trans hbears.width.symm
    have hheight : y.image.height = x.image.height := hbears'.height.trans hbears.height.symm
    have hshared : y.image.allocator = x.image.allocator := hallocator.symm
    have hshows : x.ShowsAs y := by
      apply Viewer.showsAs_of_echoes hwidth hheight hshared
      · rw [hlimits, hlimits', hcap]
      · exact fun c hc => hs.echoes ht hbears hbears' hf hg hc
    refine ⟨hshows, fun rect clamped o hrect hformat hsample hadmits => ?_⟩
    have hbounds : x.image.bounds = .ofSize r.width r.height := by
      show Rect.ofSize x.image.index.width x.image.index.height = _
      rw [hbears.width, hbears.height]
    have hclamped : x.image.Clamped clamped := Image.clamped_of_intersect? (hbounds ▸ hrect)
    have hpaintable := Image.paintable_of_reads hclamped hsample fun j _ hj =>
      hs.reads hbears hf hclamped hj
    have hdelivers := Image.delivers_of_paintable hsample (hlimits ▸ hadmits) hpaintable
    exact ⟨_, hdelivers, hshows.delivers hwidth hheight hshared hformat hdelivers⟩

def duo : Raster where
  encoding := .png
  channels := .rgb
  isDeep := false
  width := 2
  height := 1
  byteAt := fun i => #[10, 20, 30, 40, 50, 60].getD i 0

def duoPixmap : Array UInt8 :=
  #[0x50, 0x36, 0x20, 0x32, 0x20, 0x31, 0x20, 0x32, 0x35, 0x35, 0x0A, 10, 20, 30, 40, 50, 60]

def duoFarbfeld : Array UInt8 :=
  #[0x66, 0x61, 0x72, 0x62, 0x66, 0x65, 0x6C, 0x64, 0, 0, 0, 2, 0, 0, 0, 1,
    10, 10, 20, 20, 30, 30, 255, 255, 40, 40, 50, 50, 60, 60, 255, 255]

def duoTiles : Stream :=
  .ofContent { Content.ofBytes #[0x89, 0x50, 0x4E, 0x47, 0x0D, 0x0A, 0x1A, 0x0A] with
    picture := some ⟨.png, .whole 2 1 .rgba8 duo.pixels, 0, 0, false⟩ }

theorem stored_duoPixmap : duo.Stored (.ofBytes duoPixmap) := by
  have hblank : Netpbm.Separators [0x20] := .blank rfl .none
  have hnumber {d : UInt8} (h : Netpbm.isDigit d = true) :
      Netpbm.Field [0x20, d] (d.toNat - 0x30) :=
    ⟨[0x20], [d], rfl, List.cons_ne_nil _ _, hblank, Viewer.numeral_of_digit h⟩
  refine .pixmap (h := ⟨3, 2, 1, 255, 11⟩) (by decide) ?_ rfl rfl rfl rfl rfl (by decide)
  refine ⟨[0x50, 0x36, 0x20, 0x32, 0x20, 0x31, 0x20, 0x32, 0x35, 0x35, 0x0A],
    [10, 20, 30, 40, 50, 60], rfl, ⟨?_, by decide, by decide, by decide, by decide, rfl⟩,
    by decide, by decide⟩
  refine ⟨0x36, [0x20, 0x32], [0x20, 0x31], [0x20, 0x32, 0x35, 0x35], 0x0A, rfl,
    .inr ⟨rfl, rfl⟩, hnumber rfl, hnumber rfl, ?_, rfl⟩
  exact ⟨[0x20], [0x32, 0x35, 0x35], rfl, List.cons_ne_nil _ _, hblank, List.cons_ne_nil _ _,
    List.all_eq_true.mp rfl, rfl⟩

theorem stored_duoFarbfeld : duo.Stored (.ofBytes duoFarbfeld) := by
  refine .farbfeld (by decide) ⟨⟨rfl, rfl, rfl, by decide, by decide⟩, ?_⟩ (.inl rfl) ?_
  · decide
  · decide

theorem stored_duoTiles : duo.Stored duoTiles :=
  .tiled (e := .png) ⟨rfl, rfl, fun _ => rfl, rfl⟩ (by decide) rfl (by decide) rfl

theorem pictures_of_stored_agree_on_duo :
    ∃ u v w, (Viewer.openStream (.ofBytes duoPixmap) .standard).1 = .ok u ∧
      (Viewer.openStream (.ofBytes duoFarbfeld) .standard).1 = .ok v ∧
      (Viewer.openStream duoTiles .standard).1 = .ok w ∧
      (u.fedBy (.ofStream (.ofBytes duoPixmap)) .heap).ShowsAs
        (v.fedBy (.ofStream (.ofBytes duoFarbfeld)) .heap) ∧
      (u.fedBy (.ofStream (.ofBytes duoPixmap)) .heap).ShowsAs
        (w.fedBy (.ofStream duoTiles) .heap) ∧
      ∃ bytes, (u.fedBy (.ofStream (.ofBytes duoPixmap)) .heap).image.Delivers ⟨0, 0, 2, 1⟩
          (Viewer.plainOptions (some .rgb565) 2) bytes ∧
        (w.fedBy (.ofStream duoTiles) .heap).image.Delivers ⟨0, 0, 2, 1⟩
          (Viewer.plainOptions (some .rgb565) 2) bytes := by
  obtain ⟨hopens, hagree⟩ := pictures_of_stored_agree (r := duo) ⟨by decide, by decide, by decide⟩
  obtain ⟨u, hu, _⟩ := hopens _ .standard stored_duoPixmap rfl (by decide)
  obtain ⟨v, hv, _⟩ := hopens _ .standard stored_duoFarbfeld rfl (by decide)
  obtain ⟨w, hw, _⟩ := hopens _ .standard stored_duoTiles rfl (by decide)
  obtain ⟨hshows, _⟩ := hagree _ _ .standard .standard u v stored_duoPixmap stored_duoFarbfeld
    (by decide) (by decide) rfl rfl hu hv (.ofStream (.ofBytes duoPixmap))
    (.ofStream (.ofBytes duoFarbfeld)) rfl rfl
  obtain ⟨hshows', hdelivers⟩ := hagree _ _ .standard .standard u w stored_duoPixmap
    stored_duoTiles (by decide) (by decide) rfl rfl hu hw (.ofStream (.ofBytes duoPixmap))
    (.ofStream duoTiles) rfl rfl
  refine ⟨u, v, w, hu, hv, hw, hshows, hshows', ?_⟩
  exact hdelivers ⟨0, 0, 2, 1⟩ _ _ (by decide) rfl (by decide) fun _ hm => by cases hm

end Raster

end ImageRegion
