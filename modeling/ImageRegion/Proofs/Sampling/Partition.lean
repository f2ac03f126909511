import ImageRegion.Proofs.Sampling.Blocks
import ImageRegion.Proofs.Sampling.Grid

namespace ImageRegion

open Finset

namespace Rect

def block (c : Rect) (sample x y : Nat) : Block :=
  {q ∈ Ico c.left.toNat c.right.toNat ×ˢ Ico c.top.toNat c.bottom.toNat |
    (c.left.toNat + x * sample ≤ q.1 ∧ q.1 < c.left.toNat + (x + 1) * sample) ∧
      c.top.toNat + y * sample ≤ q.2 ∧ q.2 < c.top.toNat + (y + 1) * sample}

/-- No block to be averaged is so large that a sum over it could pass a word. -/
def BlocksFit (c : Rect) (o : Options) : Prop :=
  o.quality = true → ∀ x y, (c.block o.sampleSize x y).card ≤ 2 ^ 48

theorem block_eq (c : Rect) (sample x y : Nat) : c.block sample x y =
    Ico (c.left.toNat + x * sample) (min (c.left.toNat + x * sample + sample) c.right.toNat) ×ˢ
      Ico (c.top.toNat + y * sample)
        (min (c.top.toNat + y * sample + sample) c.bottom.toNat) := by
  apply Finset.ext
  rintro ⟨i, j⟩
  simp only [block, mem_filter, mem_product, mem_Ico, Nat.succ_mul]
  omega

end Rect

theorem Span.mem_stretch {origin sample i k : Nat} (hs : 0 < sample) :
    origin + k * sample ≤ i ∧ i < origin + (k + 1) * sample ↔
      origin ≤ i ∧ (i - origin) / sample = k := by
  rw [Nat.div_eq_iff hs, Nat.succ_mul]
  constructor
  · intro h
    omega
  · intro h
    omega

theorem Rect.existsUnique_block {c : Rect} {sample i j : Nat} (hl : 0 ≤ c.left)
    (ht : 0 ≤ c.top) (hs : 0 < sample) (h : c.Contains i j) :
    ∃! q : Nat × Nat, q.1 < Word.ceilDiv c.width sample ∧ q.2 < Word.ceilDiv c.height sample ∧
      (i, j) ∈ c.block sample q.1 q.2 := by
  obtain ⟨hli, hir, htj, hjb⟩ := h
  have hmem (x y : Nat) : (i, j) ∈ c.block sample x y ↔
      (i - c.left.toNat) / sample = x ∧ (j - c.top.toNat) / sample = y := by
    simp only [block, mem_filter, mem_product, mem_Ico, Span.mem_stretch hs]
    omega
  refine ⟨((i - c.left.toNat) / sample, (j - c.top.toNat) / sample), ⟨?_, ?_, ?_⟩, ?_⟩
  · have := Nat.div_mul_le_self (i - c.left.toNat) sample
    rw [Word.lt_ceilDiv_iff hs]
    simp only [width]
    omega
  · have := Nat.div_mul_le_self (j - c.top.toNat) sample
    rw [Word.lt_ceilDiv_iff hs]
    simp only [height]
    omega
  · exact (hmem _ _).mpr ⟨rfl, rfl⟩
  · rintro ⟨x, y⟩ ⟨_, _, hq⟩
    obtain ⟨hx, hy⟩ := (hmem x y).mp hq
    rw [hx, hy]

def Region.across (r : Region) (x : Nat) (pixel : Nat → Pixel) (w : Pixel → Nat) : Nat :=
  ∑ i ∈ Ico (r.columns x).first (r.columns x).stop, w (pixel i)

def Region.IsCut (r : Region) : Prop :=
  ∀ x < r.width, (r.columns x).first ≤ (r.columns x).stop ∧ (r.columns x).stop ≤ r.sourceWidth

namespace Image

variable {im : Image} {c : Rect} {o : Options} {P : Nat → Nat → Pixel}

theorem isCut_regionOf (hc : im.Clamped c) (hs : 0 < o.sampleSize) :
    (im.regionOf c o).IsCut := by
  intro x hx
  have hfirst : 0 + x * o.sampleSize < c.width := Span.first_lt hs hx
  rw [columns_regionOf hc]
  constructor
  · dsimp only
    omega
  · exact Nat.min_le_right _ _

theorem total_block (hc : im.Clamped c) (x y : Nat) (w : Pixel → Nat) :
    (c.block o.sampleSize x y).total P w =
      ∑ j ∈ Ico ((im.regionOf c o).rows y).first ((im.regionOf c o).rows y).stop,
        (im.regionOf c o).across x (fun i => P (c.left.toNat + i) j) w := by
  have hl := hc.left
  have hw := hc.width
  have hstop : min (x * o.sampleSize + o.sampleSize) c.width + c.left.toNat =
      min (c.left.toNat + x * o.sampleSize + o.sampleSize) c.right.toNat := by
    simp only [Rect.width]
    omega
  rw [Block.total, Rect.block_eq, Finset.sum_product_right, rows_regionOf hc]
  apply Finset.sum_congr rfl
  intro j _
  rw [Region.across, columns_regionOf hc,
    Finset.sum_Ico_add (fun i => w (P i j)) _ _ c.left.toNat, hstop,
    Nat.add_comm (x * o.sampleSize) c.left.toNat]

theorem card_block (hc : im.Clamped c) (x y : Nat) : (c.block o.sampleSize x y).card =
    ((im.regionOf c o).columns x).length * ((im.regionOf c o).rows y).length := by
  have hl := hc.left
  have hw := hc.width
  have hcolumns : min (c.left.toNat + x * o.sampleSize + o.sampleSize) c.right.toNat -
      (c.left.toNat + x * o.sampleSize) =
      min (x * o.sampleSize + o.sampleSize) c.width - x * o.sampleSize := by
    simp only [Rect.width]
    omega
  rw [Rect.block_eq, Finset.card_product, Nat.card_Ico, Nat.card_Ico, rows_regionOf hc,
    columns_regionOf hc, hcolumns]
  rfl

end Image

end ImageRegion
