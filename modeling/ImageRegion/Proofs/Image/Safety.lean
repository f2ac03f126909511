import ImageRegion.Proofs.Addressing
import ImageRegion.Proofs.History
import ImageRegion.Proofs.Image.Completion
import ImageRegion.Proofs.Image.Opening
import ImageRegion.Proofs.Sampling.Averages
import ImageRegion.Proofs.Source.Reach

/-!
Images that cannot fail. Once an image is open and what it needs is in memory, every row of it can
be read, and whatever painting a region computes on the way stays in range: no divisor is zero,
nothing is looked up where there is nothing, and nothing outgrows its word.
-/

namespace ImageRegion

def Span.Serves (s : Span) (centre limit : Nat) : Prop :=
  s.first ≤ centre ∧ centre < s.stop ∧ s.stop ≤ limit ∧ (limit : Int) ≤ Rect.maxCoord

def Mosaic.Finds (m : Mosaic) (x y : Nat) : Prop :=
  m.tiles.size < 0x100000000 ∧ ∃ tile, tile.size < 0x100000000 ∧
    m.tiles[y / m.tileSize * tilesAlong m.tileSize m.width + x / m.tileSize]? = some tile ∧
    tile[y % m.tileSize * extentOf m.tileSize m.width (x / m.tileSize) + x % m.tileSize]? =
      some (m.pixelAt y x)

def Index.IsSound : Index → Prop
  | .pnm h => h.IsValid
  | .farbfeld _ => True
  | .tiled m => 0 < m.tileSize ∧ ∀ x < m.width, ∀ y < m.height, m.Finds x y

namespace Image

/-- What painting a region computes stays in range. -/
structure Safe (im : Image) (r : Region) (o : Options) : Prop where
  clamped : im.Clamped r.rect
  index : im.index.IsSound
  stride : 0 < r.format.rowBytes r.width
  bytes : r.byteLength < 0x10000000000000000
  rows : ∀ y < r.height, (r.rows y).Serves (r.centreRow y) r.rect.bottom.toNat
  columns : ∀ x < r.width, (r.columns x).Serves (r.centreColumn x) r.sourceWidth
  reads : ∀ y < im.height, ∃ row, row.size = r.sourceWidth ∧
    (im.index.readRow im.feed y r.left r.sourceWidth).1 = .ok row
  tallies : ∃ P, im.index.Holds im.feed.stream.content P ∧ ∀ y < r.height, ∃ tallies,
    ((o.painting r).tallyRows im.index (r.rows y).length (r.rows y).first im.feed
      (.replicate r.width .zero)).1 = .ok tallies ∧
    ∀ x < r.width, (r.rect.block o.sampleSize x y).Tallied P (tallies.getD x .zero) ∧
      (r.columns x).length * (r.rows y).length = (r.rect.block o.sampleSize x y).card ∧
      0 < (r.rect.block o.sampleSize x y).card

structure Kept (im : Image) : Prop where
  index : im.index.IsSound
  area : im.width * im.height < Allocator.addressable
  holds : ∃ P, im.index.Holds im.feed.stream.content P
  reads : ∀ c, im.Clamped c → ∀ y < im.height, im.Reads c y

variable {im : Image} {c : Rect} {o : Options}

theorem Clamped.width_le (h : im.Clamped c) : c.width ≤ im.width := by
  have hl := h.left
  have hr := h.right
  simp only [Rect.width]
  omega

theorem Clamped.height_le (h : im.Clamped c) : c.height ≤ im.height := by
  have ht := h.top
  have hb := h.bottom
  simp only [Rect.height]
  omega

theorem area_regionOf_le (hc : im.Clamped c) (hs : 0 < o.sampleSize) :
    (im.regionOf c o).width * (im.regionOf c o).height ≤ im.width * im.height :=
  Nat.mul_le_mul (Nat.le_trans (Word.ceilDiv_le hs) hc.width_le)
    (Nat.le_trans (Word.ceilDiv_le hs) hc.height_le)

theorem byteLength_le (r : Region) : r.byteLength ≤ 4 * (r.width * r.height) := by
  have hformat : r.format.bytesPerPixel ≤ 4 := by cases r.format <;> decide
  calc r.byteLength
    _ = r.format.bytesPerPixel * (r.width * r.height) := by
      show r.width * r.format.bytesPerPixel * r.height = _
      rw [Nat.mul_comm r.width, Nat.mul_assoc]
    _ ≤ 4 * (r.width * r.height) := Nat.mul_le_mul_right _ hformat

theorem card_block_le (hc : im.Clamped c) (x y : Nat) :
    (c.block o.sampleSize x y).card ≤ im.width * im.height := by
  have hw := hc.width_le
  have hh := hc.height_le
  have ht := hc.top
  rw [card_block hc, columns_regionOf hc, rows_regionOf hc]
  apply Nat.mul_le_mul
  · simp only [Span.length]
    omega
  · simp only [Span.length]
    simp only [Rect.height] at hh
    omega

theorem serves_rows (hc : im.Clamped c) (hs : 0 < o.sampleSize) {y : Nat}
    (hy : y < (im.regionOf c o).height) :
    ((im.regionOf c o).rows y).Serves ((im.regionOf c o).centreRow y) c.bottom.toNat := by
  have hfirst := first_lt_bottom hc hs hy
  have hcoord := hc.rows
  have ht := hc.top
  rw [centreRow_eq hc hs, rows_regionOf hc]
  simp only [Span.Serves]
  omega

theorem serves_columns (hc : im.Clamped c) (hs : 0 < o.sampleSize) {x : Nat}
    (hx : x < (im.regionOf c o).width) :
    ((im.regionOf c o).columns x).Serves ((im.regionOf c o).centreColumn x) c.width := by
  have hfirst : x * o.sampleSize < c.width := (Word.lt_ceilDiv_iff hs).mp hx
  have hcoord := hc.columns
  have hl := hc.left
  have hw := hc.width
  have hcentre := centreColumn_eq hc hs (o := o) x
  rw [columns_regionOf hc]
  simp only [Span.Serves, Rect.width] at hfirst ⊢
  omega

theorem Kept.safe (h : im.Kept) (hc : im.Clamped c) (hs : 0 < o.sampleSize) :
    im.Safe (im.regionOf c o) o := by
  obtain ⟨P, hP⟩ := h.holds
  have harea := h.area
  have hbottom := hc.bottom
  simp only [Allocator.addressable] at harea
  have hwidth : 0 < c.width := by
    have hw := hc.width
    simp only [Rect.width]
    omega
  constructor
  · exact hc
  · exact h.index
  · apply PixelFormat.rowBytes_pos
    apply (Word.lt_ceilDiv_iff hs).mpr
    omega
  · have hbytes := byteLength_le (im.regionOf c o)
    have hregion := area_regionOf_le hc hs
    omega
  · exact fun y hy => serves_rows hc hs hy
  · exact fun x hx => serves_columns hc hs hx
  · intro y hy
    refine ⟨Array.ofFn fun i : Fin c.width => P (c.left.toNat + i) y, Array.size_ofFn, ?_⟩
    rw [Index.readRow_fst]
    exact (h.reads c hc y hy).rowOf hP hc hy
  · have hreads : ∀ j, c.top.toNat ≤ j → j < c.bottom.toNat → im.Reads c j :=
      fun j _ hj => h.reads c hc j (by omega)
    refine ⟨P, hP, fun y hy => ?_⟩
    obtain ⟨f, _, ht⟩ := (o.painting (im.regionOf c o)).tallyRows_eq im.index
      ((im.regionOf c o).rows y).length ((im.regionOf c o).rows y).first im.feed
      (.replicate (im.regionOf c o).width .zero)
    refine ⟨_, (congrArg Prod.fst ht).trans (tallied_blocks hP hc hs hy hreads), fun x hx => ?_⟩
    have hcard := card_block_le hc (o := o) x y
    refine ⟨?_, (card_block hc x y).symm, ?_⟩
    · rw [Array.getD_eq_getD_getElem?, Array.getElem?_ofFn, dif_pos hx, Option.getD_some]
      apply Block.tallied_counting
      exact Nat.le_trans hcard (by omega)
    · rw [show (im.regionOf c o).rect = c from rfl, card_block hc]
      obtain ⟨hcolumn, hstop, _⟩ := serves_columns hc hs hx
      obtain ⟨hrow, hlast, _⟩ := serves_rows hc hs hy
      apply Nat.mul_pos
      · exact Nat.sub_pos_of_lt (Nat.lt_of_le_of_lt hcolumn hstop)
      · exact Nat.sub_pos_of_lt (Nat.lt_of_le_of_lt hrow hlast)

end Image

theorem Word.lt_greatest {length : Nat} (h : length < Allocator.addressable) : length < greatest :=
  Nat.lt_trans h (by decide)

theorem area_le_data (width height base : Nat) {size : Nat} (hsize : 0 < size) :
    width * height ≤ width * size * height + base := by
  refine Nat.le_trans ?_ (Nat.le_add_right _ _)
  exact Nat.mul_le_mul_right _ (Nat.le_mul_of_pos_right _ hsize)

namespace Mosaic

variable {width height tileSize : Nat} {pixels : Array Pixel}

theorem finds_ofPixels (native : PixelFormat) (ht : 0 < tileSize)
    (hp : pixels.size = width * height) (harea : width * height < 0x100000000)
    (hcuts : checkCuts width height tileSize = .ok ()) {x y : Nat} (hx : x < width)
    (hy : y < height) : (ofPixels width height native tileSize pixels).Finds x y := by
  obtain ⟨_, htiles, _⟩ := bind_eq_ok hcuts
  obtain ⟨rfl, hcount⟩ := Word.product32_eq_ok_iff.mp htiles
  have htx := div_lt_tilesAlong ht hx
  have hty := div_lt_tilesAlong ht hy
  have hrow : y * width + x < pixels.size := by
    have := Word.row_end_le width hy
    omega
  refine ⟨?_, _, ?_, getElem?_tiles native ht hx hy, ?_⟩
  · rw [size_tiles, Nat.mul_comm]
    exact hcount
  · rw [size_cut ht hp htx hty]
    refine Nat.lt_of_le_of_lt ?_ harea
    rw [Nat.mul_comm width]
    exact Nat.mul_le_mul (Nat.le_trans (Nat.le_add_left _ _) (mul_add_extentOf_le ht hty))
      (Nat.le_trans (Nat.le_add_left _ _) (mul_add_extentOf_le ht htx))
  · refine (getElem?_cut ht hp hx hy).trans ?_
    rw [pixelAt_ofPixels native ht hp hx hy, Array.getD_eq_getD_getElem?,
      Array.getElem?_eq_getElem hrow, Option.getD_some]

end Mosaic

namespace Index.Built

variable {s : Stream} {config : Config} {encoding : Encoding} {index : Index}

theorem isSound (h : Built s config encoding index)
    (ht : encoding.hasRandomAccess = false → index.width * index.height < 0x100000000 ∧
      0 < config.tileSize ∧ s.content.IsWhole encoding) : index.IsSound := by
  cases h with
  | pnm hvalid _ => exact hvalid
  | farbfeld _ => trivial
  | tiled hencoding hdecoded hcuts =>
    obtain ⟨harea, hsize, hwhole⟩ := ht hencoding
    refine ⟨hsize, fun x hx y hy => ?_⟩
    exact Mosaic.finds_ofPixels _ hsize (hwhole _ _ _ _ hdecoded) harea hcuts hx hy

variable (hs : encoding.hasRandomAccess = true → s.InMemory ∧ s.length < Allocator.addressable)

include hs

theorem area_lt (h : Built s config encoding index)
    (ht : encoding.hasRandomAccess = false → index.width * index.height < 0x100000000) :
    index.width * index.height < Allocator.addressable := by
  cases h with
  | pnm hvalid hneeded =>
    obtain ⟨_, hlength⟩ := hs rfl
    refine Nat.lt_of_le_of_lt ?_ hlength
    exact Nat.le_trans (area_le_data _ _ _ (Netpbm.Header.pixelBytes_pos hvalid.channels))
      (Netpbm.Header.data_le hneeded (Word.lt_greatest hlength))
  | farbfeld hneeded =>
    obtain ⟨_, hlength⟩ := hs rfl
    refine Nat.lt_of_le_of_lt ?_ hlength
    exact Nat.le_trans (area_le_data _ _ _ (by decide))
      (Farbfeld.Header.data_le hneeded (Word.lt_greatest hlength))
  | tiled hencoding _ _ => exact Nat.lt_trans (ht hencoding) (by decide)

theorem rowOf_ok (h : Built s config encoding index) {x count y : Nat}
    (hx : x + count ≤ index.width) (hy : y < index.height) :
    ∃ row, index.rowOf s.answers x count y = .ok row := by
  have hword (hlength : s.length < Allocator.addressable) : s.length < 0x10000000000000000 :=
    Nat.lt_trans hlength (by decide)
  cases h with
  | pnm hvalid hneeded =>
    obtain ⟨hmemory, hlength⟩ := hs rfl
    have hdata := Netpbm.Header.data_le hneeded (Word.lt_greatest hlength)
    exact Answers.row_ok hmemory (hword hlength) hdata hx hy
  | farbfeld hneeded =>
    obtain ⟨hmemory, hlength⟩ := hs rfl
    have hdata := Farbfeld.Header.data_le hneeded (Word.lt_greatest hlength)
    exact Answers.row_ok hmemory (hword hlength) hdata hx hy
  | tiled _ _ _ =>
    refine ⟨_, if_neg ?_⟩
    exact not_or.mpr ⟨Nat.not_le_of_lt hy, Nat.not_lt_of_le hx⟩

end Index.Built

namespace Viewer

variable {v : Viewer} {s : Stream} {config : Config}

theorem Opened.fedBy {f : Feed} (h : v.Opened s config)
    (hf : ∃ position, f.stream = s.turned position) :
    (v.fedBy f config.allocator).Opened s config :=
  ⟨h.built, hf, rfl, h.limits, h.width, h.height⟩

theorem Opened.kept (h : v.Opened s config)
    (hstreamed : v.encoding.hasRandomAccess = true →
      s.InMemory ∧ s.length < Allocator.addressable)
    (htiled : v.encoding.hasRandomAccess = false →
      v.width * v.height < 0x100000000 ∧ 0 < config.tileSize ∧ s.content.IsWhole v.encoding) :
    v.image.Kept := by
  rw [h.width, h.height] at htiled
  obtain ⟨position, hstream⟩ := h.stream
  constructor
  · exact h.built.isSound htiled
  · exact h.built.area_lt hstreamed fun he => (htiled he).1
  · exact h.holds fun he => (htiled he).2
  · intro c hc y hy
    have hl := hc.left
    have hw := hc.width
    have hr := hc.right
    have hcolumns : c.left.toNat + c.width ≤ v.image.index.width := by
      simp only [Image.width] at hr
      simp only [Rect.width]
      omega
    obtain ⟨row, hrow⟩ := h.built.rowOf_ok hstreamed hcolumns hy
    refine ⟨row, ?_⟩
    rw [Index.readRow_fst, hstream]
    exact (s.answers_turned position) ▸ hrow

end Viewer

end ImageRegion
