import ImageRegion.Proofs.Image.Completion
import ImageRegion.Proofs.Sampling.Averages
import ImageRegion.Proofs.Sampling.Centres

namespace ImageRegion

/-- The pixel that the tally of a block comes to, should its sums outgrow their words or not. -/
def Block.pixel (B : Block) (P : Nat → Nat → Pixel) : Pixel :=
  (Tally.counting (B.total P)).average (.ofNat B.card)

/-- The extent from `first` to `last` begins `i` samples behind `origin`, and ends at `limit` or
after whole samples. -/
structure Cutout (origin limit : Int) (sample i : Nat) (first last : Int) : Prop where
  begins : first = origin + (i * sample : Nat)
  nonempty : first < last
  within : last ≤ limit
  ends : last = limit ∨ ∃ n : Nat, last = first + (n * sample : Nat)

namespace Cutout

section

variable {origin limit first last : Int} {sample i k : Nat}
  (h : Cutout origin limit sample i first last) (ho : 0 ≤ origin) (hs : 0 < sample)
  (hk : k < Word.ceilDiv (last - first).toNat sample)

include h ho

theorem first_eq : first.toNat + k * sample = origin.toNat + (k + i) * sample := by
  have hbegins := h.begins
  rw [Nat.add_mul]
  omega

include hs hk

theorem first_lt : first.toNat + k * sample < last.toNat := by
  have hbegins := h.begins
  have hlt := (Word.lt_ceilDiv_iff hs).mp hk
  omega

theorem ends_or_fits :
    last.toNat = limit.toNat ∨ first.toNat + k * sample + sample ≤ last.toNat := by
  rcases h.ends with hends | ⟨n, hn⟩
  · exact .inl (congrArg Int.toNat hends)
  · right
    have hbegins := h.begins
    have hlt := (Word.lt_ceilDiv_iff hs).mp hk
    have hextent : (last - first).toNat = n * sample := by omega
    rw [hextent] at hlt
    have hnext := Nat.mul_le_mul_right sample (Nat.lt_of_mul_lt_mul_right hlt)
    rw [Nat.succ_mul] at hnext
    omega

theorem stop_eq : min (first.toNat + k * sample + sample) last.toNat =
    min (origin.toNat + (k + i) * sample + sample) limit.toNat := by
  have hle := Int.toNat_le_toNat h.within
  rw [← h.first_eq ho]
  rcases h.ends_or_fits ho hs hk with hends | hfits
  · rw [hends]
  · rw [Nat.min_eq_left hfits, Nat.min_eq_left (Nat.le_trans hfits hle)]

theorem centre_eq : min (first.toNat + k * sample + sample / 2) (last.toNat - 1) =
    min (origin.toNat + (k + i) * sample + sample / 2) (limit.toNat - 1) := by
  have hle := Int.toNat_le_toNat h.within
  rw [← h.first_eq ho]
  rcases h.ends_or_fits ho hs hk with hends | hfits
  · rw [hends]
  · have hhalf : first.toNat + k * sample + sample / 2 ≤ last.toNat - 1 := by omega
    rw [Nat.min_eq_left hhalf, Nat.min_eq_left (Nat.le_trans hhalf (Nat.sub_le_sub_right hle 1))]

end

variable {origin limit x : Int} {sample n : Nat}

theorem whole (h : origin < limit) : Cutout origin limit sample 0 origin limit := by
  constructor
  · simp
  · exact h
  · exact Int.le_refl limit
  · exact .inl rfl

theorem before (hx : x = origin + (n * sample : Nat)) (hl : origin < x) (hr : x < limit) :
    Cutout origin limit sample 0 origin x := by
  constructor
  · simp
  · exact hl
  · exact Int.le_of_lt hr
  · exact .inr ⟨n, hx⟩

theorem behind (hx : x = origin + (n * sample : Nat)) (hr : x < limit) :
    Cutout origin limit sample n x limit := by
  constructor
  · exact hx
  · exact hr
  · exact Int.le_refl limit
  · exact .inl rfl

end Cutout

namespace Rect

def pixel (c : Rect) (o : Options) (P : Nat → Nat → Pixel) (x y : Nat) : Pixel :=
  if o.quality then (c.block o.sampleSize x y).pixel P else c.centrePixel o.sampleSize P x y

structure Part (c p : Rect) (sample i j : Nat) : Prop where
  columns : Cutout c.left c.right sample i p.left p.right
  rows : Cutout c.top c.bottom sample j p.top p.bottom

variable {c p : Rect} {sample i j x y : Nat}

theorem Part.block_eq (h : c.Part p sample i j) (hl : 0 ≤ c.left) (ht : 0 ≤ c.top)
    (hs : 0 < sample) (hx : x < Word.ceilDiv p.width sample)
    (hy : y < Word.ceilDiv p.height sample) :
    p.block sample x y = c.block sample (x + i) (y + j) := by
  rw [Rect.block_eq, Rect.block_eq, h.columns.stop_eq hl hs hx, h.columns.first_eq hl,
    h.rows.stop_eq ht hs hy, h.rows.first_eq ht]

theorem Part.centrePixel_eq (h : c.Part p sample i j) (hl : 0 ≤ c.left) (ht : 0 ≤ c.top)
    (hs : 0 < sample) (hx : x < Word.ceilDiv p.width sample)
    (hy : y < Word.ceilDiv p.height sample) (P : Nat → Nat → Pixel) :
    p.centrePixel sample P x y = c.centrePixel sample P (x + i) (y + j) := by
  unfold centrePixel
  rw [h.columns.centre_eq hl hs hx, h.rows.centre_eq ht hs hy]

theorem Part.pixel_eq {o : Options} (h : c.Part p o.sampleSize i j) (hl : 0 ≤ c.left)
    (ht : 0 ≤ c.top) (hs : 0 < o.sampleSize) (hx : x < Word.ceilDiv p.width o.sampleSize)
    (hy : y < Word.ceilDiv p.height o.sampleSize) (P : Nat → Nat → Pixel) :
    p.pixel o P x y = c.pixel o P (x + i) (y + j) := by
  unfold pixel
  rw [h.block_eq hl ht hs hx hy, h.centrePixel_eq hl ht hs hx hy]

end Rect

namespace Painting

variable {p : Painting} {rows : SourceRows}

theorem rows_of_tallied {count y : Nat} {tallies result : Array Tally}
    (h : p.tallied rows count y tallies = .ok result) :
    ∀ j, y ≤ j → j < y + count → ∃ row, rows j = .ok row := by
  induction count generalizing y tallies with
  | zero =>
    intro j hj hlt
    omega
  | succ count ih =>
    intro j hj hlt
    simp only [tallied] at h
    cases hrow : rows y with
    | error failure => simp only [hrow, reduceCtorEq] at h
    | ok row =>
      simp only [hrow] at h
      rcases Nat.eq_or_lt_of_le hj with rfl | hj
      · exact ⟨row, hrow⟩
      · exact ih h j hj (by omega)

theorem rows_of_averaged {y : Nat} {row : Array Pixel} (h : p.averaged rows y = .ok row) :
    ∀ j, (p.region.rows y).first ≤ j → j < (p.region.rows y).first + (p.region.rows y).length →
      ∃ row, rows j = .ok row := by
  unfold averaged at h
  dsimp only at h
  split at h
  · cases h
  next ht => exact rows_of_tallied ht

theorem row_of_picked {y : Nat} {row : Array Pixel} (h : p.picked rows y = .ok row) :
    ∃ row, rows (p.region.centreRow y) = .ok row := by
  unfold picked at h
  split at h
  · cases h
  next hrow => exact ⟨_, hrow⟩

end Painting

namespace Image

variable {im : Image} {c p : Rect} {o : Options} {P : Nat → Nat → Pixel} {i j y : Nat}

theorem Clamped.part (hc : im.Clamped c) (h : c.Part p o.sampleSize i j) : im.Clamped p := by
  have hl := hc.left
  have ht := hc.top
  have hr := hc.right
  have hb := hc.bottom
  have hcolumns := hc.columns
  have hrows := hc.rows
  have hwide := h.columns.within
  have hhigh := h.rows.within
  have hfirst := h.columns.begins
  have htop := h.rows.begins
  constructor
  · omega
  · exact h.columns.nonempty
  · omega
  · omega
  · exact h.rows.nonempty
  · omega
  · omega
  · omega

theorem lt_height_of_part (hc : im.Clamped c) (h : c.Part p o.sampleSize i j)
    (hs : 0 < o.sampleSize) (hy : y < (im.regionOf p o).height) :
    y + j < (im.regionOf c o).height := by
  have hfirst := h.rows.first_eq hc.top (k := y)
  have hlt := h.rows.first_lt hc.top hs hy
  have hle := Int.toNat_le_toNat h.rows.within
  apply (Word.lt_ceilDiv_iff hs).mpr
  simp only [Rect.height]
  omega

theorem rows_of_part (hc : im.Clamped c) (h : c.Part p o.sampleSize i j) (hs : 0 < o.sampleSize)
    (hy : y < (im.regionOf p o).height) :
    (im.regionOf p o).rows y = (im.regionOf c o).rows (y + j) := by
  rw [rows_regionOf (hc.part h), rows_regionOf hc, h.rows.stop_eq hc.top hs hy,
    h.rows.first_eq hc.top]

theorem centreRow_of_part (hc : im.Clamped c) (h : c.Part p o.sampleSize i j)
    (hs : 0 < o.sampleSize) (hy : y < (im.regionOf p o).height) :
    (im.regionOf p o).centreRow y = (im.regionOf c o).centreRow (y + j) := by
  show Span.centre o.sampleSize ((im.regionOf p o).rows y) =
    Span.centre o.sampleSize ((im.regionOf c o).rows (y + j))
  rw [rows_of_part hc h hs hy]

def Needs (im : Image) (c : Rect) (o : Options) (y k : Nat) : Prop :=
  if o.quality then ((im.regionOf c o).rows y).first ≤ k ∧ k < ((im.regionOf c o).rows y).stop
  else k = (im.regionOf c o).centreRow y

theorem needs_part_iff (hc : im.Clamped c) (h : c.Part p o.sampleSize i j) (hs : 0 < o.sampleSize)
    (hy : y < (im.regionOf p o).height) (k : Nat) :
    im.Needs p o y k ↔ im.Needs c o (y + j) k := by
  unfold Needs
  rw [rows_of_part hc h hs hy, centreRow_of_part hc h hs hy]

def Samples (im : Image) (c : Rect) (o : Options) (y : Nat) : Prop :=
  ∀ k, im.Needs c o y k → im.Reads c k

theorem samples_of_sampled {row : Array Pixel}
    (h : (o.painting (im.regionOf c o)).sampled (im.rows (im.regionOf c o) o) y = .ok row) :
    im.Samples c o y := by
  intro k hk
  suffices hrow : ∃ row, im.rows (im.regionOf c o) o k = .ok row by
    obtain ⟨row, hrow⟩ := hrow
    exact ⟨row, (Index.readRow_fst _ _ _ _ _).trans hrow⟩
  unfold Needs at hk
  unfold Painting.sampled at h
  by_cases hq : o.quality = true
  · rw [show (o.painting (im.regionOf c o)).quality = o.quality from rfl, if_pos hq] at h
    rw [if_pos hq] at hk
    apply Painting.rows_of_averaged h k hk.1
    show k < ((im.regionOf c o).rows y).first + ((im.regionOf c o).rows y).length
    rw [Span.length]
    omega
  · rw [show (o.painting (im.regionOf c o)).quality = o.quality from rfl, if_neg hq] at h
    rw [if_neg hq] at hk
    subst hk
    have hpicked := Painting.row_of_picked h
    exact hpicked

theorem sampled_pixels (hP : im.index.Holds im.feed.stream.content P) (hc : im.Clamped c)
    (hs : 0 < o.sampleSize) (hy : y < (im.regionOf c o).height) (h : im.Samples c o y) :
    (o.painting (im.regionOf c o)).sampled (im.rows (im.regionOf c o) o) y =
      .ok (Array.ofFn fun x : Fin (im.regionOf c o).width => c.pixel o P x y) := by
  unfold Samples Needs at h
  by_cases hq : o.quality = true
  · simp only [if_pos hq, and_imp] at h
    have hpixel (x : Nat) : c.pixel o P x y = (c.block o.sampleSize x y).pixel P := if_pos hq
    have ht := tallied_block hP hc hs hy h
    unfold Painting.sampled Painting.averaged
    simp only [Options.painting, hq, if_true] at ht ⊢
    rw [ht]
    dsimp only
    congr 1
    apply Array.ext
    · simp
    · intro x hx _
      simp only [Array.getElem_mapIdx, Array.getElem_ofFn, hpixel, Block.pixel]
      rw [card_block hc]
  · simp only [if_neg hq, forall_eq, centreRow_eq hc hs] at h
    have hpixel (x : Nat) : c.pixel o P x y = c.centrePixel o.sampleSize P x y := if_neg hq
    simp only [hpixel]
    exact sampled_centres hP hc hs (Bool.eq_false_iff.mpr hq) h

end Image

end ImageRegion
