import ImageRegion.Image.Decode
import ImageRegion.Source.Adapter
import ImageRegion.Proofs.Image.Picture

namespace ImageRegion

namespace Span

theorem first_lt {origin limit sample i : Nat} (hs : 0 < sample)
    (hi : i < Word.ceilDiv (limit - origin) sample) : origin + i * sample < limit := by
  have := (Word.lt_ceilDiv_iff hs).mp hi
  omega

theorem centre_block {origin limit sample i : Nat} (hs : 0 < sample) (hl : limit < 0x100000000) :
    centre sample (block origin limit sample i) =
      min (origin + i * sample + sample / 2) (limit - 1) := by
  rw [block_eq hl]
  simp only [centre, Word.cap32]
  omega

end Span

namespace Image

structure Clamped (im : Image) (c : Rect) : Prop where
  left : 0 ≤ c.left
  width : c.left < c.right
  right : c.right ≤ im.width
  top : 0 ≤ c.top
  height : c.top < c.bottom
  bottom : c.bottom ≤ im.height
  columns : c.right ≤ Rect.maxCoord
  rows : c.bottom ≤ Rect.maxCoord

variable {im : Image} {rect c : Rect} {o : Options}

theorem clamped_of_intersect? (h : im.bounds.intersect? rect = some c) : im.Clamped c := by
  unfold Rect.intersect? at h
  split at h
  · cases h
  next he =>
    cases h
    obtain ⟨hw, hh⟩ := (Rect.isEmpty_eq_false _).mp (Bool.eq_false_iff.mpr he)
    simp only [Rect.overlap, bounds, Rect.ofSize] at hw hh ⊢
    constructor <;> dsimp only <;> omega

theorem Clamped.right_lt (h : im.Clamped c) : c.right.toNat < 0x100000000 := by
  have := h.columns
  simp only [Rect.maxCoord] at this
  omega

theorem Clamped.bottom_lt (h : im.Clamped c) : c.bottom.toNat < 0x100000000 := by
  have := h.rows
  simp only [Rect.maxCoord] at this
  omega

theorem Clamped.width_lt (h : im.Clamped c) : c.width < 0x100000000 := by
  have hr := h.right_lt
  have hl := h.left
  simp only [Rect.width]
  omega

theorem size_regionOf_lt (hc : im.Clamped c) (hs : 0 < o.sampleSize) :
    (im.regionOf c o).width < 0x80000000 ∧ (im.regionOf c o).height < 0x80000000 := by
  have hleft := hc.left
  have hcolumns := hc.columns
  have htop := hc.top
  have hrows := hc.rows
  have hwidth : (im.regionOf c o).width ≤ c.width := Word.ceilDiv_le hs
  have hheight : (im.regionOf c o).height ≤ c.height := Word.ceilDiv_le hs
  simp only [Rect.maxCoord] at hcolumns hrows
  simp only [Rect.width, Rect.height] at hwidth hheight
  omega

theorem rows_regionOf (hc : im.Clamped c) (y : Nat) : (im.regionOf c o).rows y =
    ⟨c.top.toNat + y * o.sampleSize,
      min (c.top.toNat + y * o.sampleSize + o.sampleSize) c.bottom.toNat⟩ :=
  Span.block_eq hc.bottom_lt

theorem columns_regionOf (hc : im.Clamped c) (x : Nat) : (im.regionOf c o).columns x =
    ⟨x * o.sampleSize, min (x * o.sampleSize + o.sampleSize) c.width⟩ := by
  have hblock : Span.block 0 c.width o.sampleSize x = _ := Span.block_eq hc.width_lt
  rw [Nat.zero_add] at hblock
  exact hblock

theorem first_lt_bottom (hc : im.Clamped c) (hs : 0 < o.sampleSize) {y : Nat}
    (hy : y < (im.regionOf c o).height) :
    c.top.toNat + y * o.sampleSize < c.bottom.toNat := by
  have hlt : y * o.sampleSize < c.height := (Word.lt_ceilDiv_iff hs).mp hy
  have ht := hc.top
  simp only [Rect.height] at hlt
  omega

theorem centreRow_eq (hc : im.Clamped c) (hs : 0 < o.sampleSize) (y : Nat) :
    (im.regionOf c o).centreRow y =
      min (c.top.toNat + y * o.sampleSize + o.sampleSize / 2) (c.bottom.toNat - 1) :=
  Span.centre_block hs hc.bottom_lt

theorem centreColumn_eq (hc : im.Clamped c) (hs : 0 < o.sampleSize) (x : Nat) :
    c.left.toNat + (im.regionOf c o).centreColumn x =
      min (c.left.toNat + x * o.sampleSize + o.sampleSize / 2) (c.right.toNat - 1) := by
  have hl := hc.left
  have hw := hc.width
  show c.left.toNat + Span.centre o.sampleSize (.block 0 c.width o.sampleSize x) = _
  rw [Span.centre_block hs hc.width_lt]
  simp only [Rect.width]
  omega

def Reads (im : Image) (c : Rect) (y : Nat) : Prop :=
  ∃ row, (im.index.readRow im.feed y c.left.toNat c.width).1 = .ok row

theorem Reads.rowOf {P : Nat → Nat → Pixel} (hP : im.index.Holds im.feed.stream.content P)
    (hc : im.Clamped c) {y : Nat} (hy : y < im.height) (h : im.Reads c y) :
    im.index.rowOf im.feed.stream.answers c.left.toNat c.width y =
      .ok (Array.ofFn fun i : Fin c.width => P (c.left.toNat + i) y) := by
  obtain ⟨row, hr⟩ := h
  rw [Index.readRow_fst] at hr
  have hx : c.left.toNat + c.width ≤ im.index.width := by
    have hl := hc.left
    have hw := hc.width
    have := hc.right
    simp only [width] at this
    simp only [Rect.width]
    omega
  rw [hr, Index.rowOf_eq_of_holds hP hx hy hr]

theorem reads_of_tiled {m : Mosaic} (hm : im.index = .tiled m) (hc : im.Clamped c) {y : Nat}
    (hy : y < im.height) : im.Reads c y := by
  have hl := hc.left
  have hw := hc.width
  have hr := hc.right
  simp only [width, height, hm, Index.width, Index.height] at hr hy
  have hin : ¬(m.height ≤ y ∨ m.width < c.left.toNat + c.width) := by
    simp only [Rect.width]
    omega
  have hrow : m.readRow y c.left.toNat c.width = .ok _ := if_neg hin
  exact ⟨_, by rw [hm]; exact hrow⟩

def stampPixels : Array Pixel :=
  #[⟨200, 100, 50, 255⟩, ⟨10, 20, 30, 128⟩, ⟨255, 255, 255, 0⟩, .gray 7, .gray 90, .gray 255]

def stamp : Image :=
  ⟨.png, .heap, .none, .tiled (.ofPixels 3 2 .rgba8 2 stampPixels), .ofStream (.ofBytes #[])⟩

def stampPixel (x y : Nat) : Pixel := stampPixels.getD (y * 3 + x) .clear

theorem holds_stamp : stamp.index.Holds stamp.feed.stream.content stampPixel :=
  ⟨stampPixels, by decide, rfl, rfl, fun _ _ _ _ => rfl⟩

theorem reads_stamp {rect c : Rect} (h : stamp.bounds.intersect? rect = some c) {y : Nat}
    (hy : y < 2) : stamp.Reads c y :=
  reads_of_tiled rfl (clamped_of_intersect? h) hy

end Image

end ImageRegion
