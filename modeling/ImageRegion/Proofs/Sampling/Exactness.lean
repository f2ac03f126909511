import Mathlib.Algebra.Order.Floor.Semifield
import Mathlib.Algebra.Order.Floor.Ring
import Mathlib.Data.Rat.Floor
import Mathlib.Order.Interval.Finset.Nat
import Mathlib.Data.Finset.Pairwise
import ImageRegion.Proofs.Geometry.Words
import ImageRegion.Proofs.Sampling.Partition

namespace ImageRegion

open Finset Word

theorem Word.ceilDiv_eq_ceil {n d : Nat} (hd : 0 < d) : ceilDiv n d = ⌈(n : ℚ) / d⌉₊ := by
  have hd' : (0 : ℚ) < d := Nat.cast_pos.mpr hd
  refine eq_of_forall_lt_iff fun i => ?_
  rw [lt_ceilDiv_iff hd, Nat.lt_ceil, lt_div_iff₀ hd', ← Nat.cast_mul, Nat.cast_lt]

namespace Span

def positions (s : Span) : Finset Nat := Ico s.first s.stop

structure Tiling (spans : Nat → Span) (count origin limit sample : Nat) : Prop where
  inhabited : ∀ i < count, (spans i).positions.Nonempty
  starts : 0 < count ∧ (spans 0).first = origin
  follows : ∀ i, i + 1 < count → (spans (i + 1)).first = (spans i).stop
  ends : (spans (count - 1)).stop = limit
  disjoint : (range count : Set Nat).PairwiseDisjoint fun i => (spans i).positions
  covers : ((range count).biUnion fun i => (spans i).positions) = Ico origin limit
  card_le : ∀ i < count, (spans i).positions.card ≤ sample
  card_eq : ∀ i, i + 1 < count → (spans i).positions.card = sample

section Block

variable {origin limit sample i n : Nat}

theorem mem_positions_block (hs : 0 < sample) (hl : limit < 0x100000000) :
    n ∈ (block origin limit sample i).positions ↔
      (origin ≤ n ∧ n < limit) ∧ (n - origin) / sample = i := by
  rw [block_eq hl, positions, mem_Ico, and_right_comm, ← mem_stretch hs, Nat.succ_mul]
  dsimp only
  omega

theorem tiling_block (hs : 0 < sample) (h : origin < limit) (hl : limit < 0x100000000) :
    Tiling (block origin limit sample) (ceilDiv (limit - origin) sample) origin limit sample := by
  have hcount : 0 < ceilDiv (limit - origin) sample := by
    rw [lt_ceilDiv_iff hs]
    omega
  have hfirst {i : Nat} (hi : i < ceilDiv (limit - origin) sample) :
      origin + i * sample < limit := first_lt hs hi
  have hstop : limit ≤ origin + ceilDiv (limit - origin) sample * sample := by
    have := mt (lt_ceilDiv_iff (n := limit - origin) hs).mpr (Nat.lt_irrefl _)
    omega
  constructor
  case inhabited =>
    intro i hi
    have := hfirst hi
    rw [block_eq hl, positions, nonempty_Ico]
    dsimp only
    omega
  case starts =>
    refine ⟨hcount, ?_⟩
    rw [block_eq hl]
    dsimp only
    omega
  case follows =>
    intro i hi
    have := hfirst hi
    simp only [block_eq hl, Nat.succ_mul] at this ⊢
    omega
  case ends =>
    have hlast : ceilDiv (limit - origin) sample * sample =
        (ceilDiv (limit - origin) sample - 1) * sample + sample := by
      rw [← Nat.succ_mul, Nat.succ_eq_add_one, Nat.sub_add_cancel hcount]
    rw [block_eq hl]
    dsimp only
    omega
  case disjoint =>
    intro i _ j _ hij
    refine disjoint_left.mpr fun n hi hj => hij ?_
    have hi := ((mem_positions_block hs hl).mp hi).2
    have hj := ((mem_positions_block hs hl).mp hj).2
    exact hi.symm.trans hj
  case covers =>
    ext n
    simp only [mem_biUnion, mem_range, mem_positions_block hs hl, mem_Ico]
    constructor
    · rintro ⟨_, _, hn, _⟩
      exact hn
    · intro hn
      refine ⟨(n - origin) / sample, ?_, hn, rfl⟩
      have := Nat.div_mul_le_self (n - origin) sample
      rw [lt_ceilDiv_iff hs]
      omega
  case card_le =>
    intro i _
    rw [block_eq hl, positions, Nat.card_Ico]
    dsimp only
    omega
  case card_eq =>
    intro i hi
    have := hfirst hi
    rw [Nat.succ_mul] at this
    rw [block_eq hl, positions, Nat.card_Ico]
    dsimp only
    omega

end Block

/-- Spans and centres are what the words come to, though sums may stop at the greatest word. -/
structure Exact (spans : Nat → Span) (centres : Nat → Nat) (count : Nat) (origin limit : Int)
    (sample : Nat) : Prop where
  tiling : Tiling spans count origin.toNat limit.toNat sample
  span : ∀ i < count, block? origin limit sample i = some (spans i)
  span_eq : ∀ i < count, spans i = ⟨origin.toNat + i * sample,
    min (origin.toNat + (i + 1) * sample) limit.toNat⟩
  centre : ∀ i < count, centre? sample (spans i) = some (centres i)
  centre_eq : ∀ i < count, centres i = min ((spans i).first + sample / 2) ((spans i).stop - 1)
  centre_mem : ∀ i < count, centres i ∈ (spans i).positions

theorem exact_block {origin limit : Int} {sample : Nat} (ho : 0 ≤ origin) (h : origin < limit)
    (hl : limit < 0x100000000) (hs : 0 < sample) :
    Exact (block origin.toNat limit.toNat sample)
      (fun i => centre sample (block origin.toNat limit.toNat sample i))
      (ceilDiv (limit - origin).toNat sample) origin limit sample := by
  have hlimit : limit.toNat < 0x100000000 := by omega
  have hextent : (limit - origin).toNat = limit.toNat - origin.toNat := by omega
  have horder : origin.toNat < limit.toNat := by omega
  have htiling := tiling_block hs horder hlimit
  rw [← hextent] at htiling
  have hinside {i : Nat} (hi : i < ceilDiv (limit - origin).toNat sample) :
      (block origin.toNat limit.toNat sample i).first <
        (block origin.toNat limit.toNat sample i).stop := nonempty_Ico.mp (htiling.inhabited i hi)
  have hstop (i : Nat) : (block origin.toNat limit.toNat sample i).stop ≤ 0x100000000 :=
    Nat.le_trans (Nat.min_le_right _ _) (Nat.le_of_lt hlimit)
  constructor
  case tiling => exact htiling
  case span =>
    intro i hi
    rw [hextent] at hi
    exact block?_eq ho hl (first_lt hs hi)
  case span_eq =>
    intro i _
    rw [block_eq hlimit, Nat.succ_mul, Nat.add_assoc]
  case centre => exact fun i hi => centre?_eq (hinside hi) (hstop i)
  case centre_eq =>
    intro i _
    rw [centre_block hs hlimit, block_eq hlimit]
    dsimp only
    omega
  case centre_mem =>
    intro i hi
    exact mem_Ico.mpr (centre_mem (hinside hi) (hstop i))

def shifted (n : Nat) (s : Span) : Span := ⟨n + s.first, n + s.stop⟩

end Span

namespace Region

variable {r : Region}

def strip (r : Region) (x : Nat) : Span :=
  .block r.rect.left.toNat r.rect.right.toNat r.sampleSize x

theorem sourceWidth_eq (hleft : 0 ≤ r.rect.left) :
    r.sourceWidth = r.rect.right.toNat - r.rect.left.toNat := by
  simp only [sourceWidth, Rect.width]
  omega

theorem strip_eq (hleft : 0 ≤ r.rect.left) (hwidth : r.rect.left < r.rect.right)
    (hright : r.rect.right < 0x100000000) (x : Nat) : r.strip x = (r.columns x).shifted r.left := by
  have hsource := sourceWidth_eq hleft
  rw [strip, columns, Span.block_eq (by omega), Span.block_eq (by omega), hsource]
  simp only [Span.shifted, left, Span.mk.injEq]
  omega

theorem centre_strip (hleft : 0 ≤ r.rect.left) (hwidth : r.rect.left < r.rect.right)
    (hright : r.rect.right < 0x100000000) (hs : 0 < r.sampleSize) (x : Nat) :
    Span.centre r.sampleSize (r.strip x) = r.left + r.centreColumn x := by
  have hsource := sourceWidth_eq hleft
  rw [strip, centreColumn, columns, Span.centre_block hs (by omega),
    Span.centre_block hs (by omega), hsource]
  simp only [left]
  omega

theorem sampling_is_exact (hleft : 0 ≤ r.rect.left) (hwidth : r.rect.left < r.rect.right)
    (hright : r.rect.right ≤ Rect.maxCoord) (htop : 0 ≤ r.rect.top)
    (hheight : r.rect.top < r.rect.bottom) (hbottom : r.rect.bottom ≤ Rect.maxCoord)
    (hs : 0 < r.sampleSize) (hsize : r.rect.sampledSize r.sampleSize = (r.width, r.height)) :
    r.rect.sampled? r.sampleSize = some (r.width, r.height) ∧
    r.width = ⌈((r.rect.right - r.rect.left : Int) : ℚ) / r.sampleSize⌉₊ ∧
    r.height = ⌈((r.rect.bottom - r.rect.top : Int) : ℚ) / r.sampleSize⌉₊ ∧
    Span.Exact r.rows r.centreRow r.height r.rect.top r.rect.bottom r.sampleSize ∧
    Span.Exact r.strip (fun x => Span.centre r.sampleSize (r.strip x)) r.width r.rect.left
      r.rect.right r.sampleSize ∧
    signed32? r.sourceWidth = some (r.sourceWidth : Int) ∧
    Span.Exact r.columns r.centreColumn r.width 0 r.sourceWidth r.sampleSize ∧
    (∀ x, r.strip x = (r.columns x).shifted r.left ∧
      Span.centre r.sampleSize (r.strip x) = r.left + r.centreColumn x) ∧
    ∀ f : PixelFormat, f.imageBytes? r.width r.height = some (f.imageBytes r.width r.height) ∧
      f.imageBytes r.width r.height < 0x10000000000000000 := by
  simp only [Rect.maxCoord] at hright hbottom
  have hcoords : r.rect.HasCoords := by
    constructor <;> simp only [Rect.IsCoord, Rect.minCoord, Rect.maxCoord] <;> omega
  obtain ⟨hacross, hdown⟩ := Prod.mk.inj hsize
  have hacross_le := ceilDiv_le (n := r.rect.width) hs
  have hdown_le := ceilDiv_le (n := r.rect.height) hs
  have hextents : (r.rect.width : Int) = r.rect.right - r.rect.left ∧
      (r.rect.height : Int) = r.rect.bottom - r.rect.top := by
    simp only [Rect.width, Rect.height]
    omega
  refine ⟨?_, ?_, ?_, ?_, ?_, ?_, ?_, ?_, ?_⟩
  · rw [hcoords.sampled?_eq hs, hsize]
  · rw [← hacross, ceilDiv_eq_ceil hs, ← hextents.1, Int.cast_natCast]
  · rw [← hdown, ceilDiv_eq_ceil hs, ← hextents.2, Int.cast_natCast]
  · rw [← hdown]
    exact Span.exact_block htop hheight (by omega) hs
  · rw [← hacross]
    exact Span.exact_block hleft hwidth (by omega) hs
  · exact signed32?_natCast (show r.rect.width < 0x80000000 by omega)
  · have hpos : 0 < (r.rect.width : Int) := by omega
    have hlt : (r.rect.width : Int) < 0x100000000 := by omega
    have hexact := Span.exact_block (Int.le_refl 0) hpos hlt hs
    rw [Int.sub_zero, Int.toNat_natCast, hacross] at hexact
    exact hexact
  · exact fun x => ⟨strip_eq hleft hwidth (by omega) x, centre_strip hleft hwidth (by omega) hs x⟩
  · exact fun f => f.imageBytes?_eq (by omega) (by omega)

def widest : Region :=
  ⟨2, 1, .rgba8, ⟨1, 3, 0x7FFFFFFF, 0x7FFFFFFF⟩, 0x7FFFFFFD, .pnm⟩

theorem sampling_is_exact_of_widest :
    widest.rect.sampled? widest.sampleSize = some (2, 1) ∧
      widest.columns 1 = ⟨0x7FFFFFFD, 0x7FFFFFFE⟩ ∧ widest.strip 1 = ⟨0x7FFFFFFE, 0x7FFFFFFF⟩ ∧
      Span.block? 0 0x7FFFFFFE 0x7FFFFFFD 1 = some ⟨0x7FFFFFFD, 0x7FFFFFFE⟩ ∧
      Span.centre? 0x7FFFFFFD ⟨0x7FFFFFFD, 0x7FFFFFFE⟩ = some 0x7FFFFFFD ∧
      (widest.columns 0).positions.card = 0x7FFFFFFD ∧ widest.byteLength < 0x10000000000000000 := by
  obtain ⟨hsampled, -, -, -, -, -, hcolumns, hshifted, hbytes⟩ :=
    sampling_is_exact (r := widest) (by decide) (by decide) (by decide) (by decide) (by decide)
      (by decide) (by decide) (by decide)
  have hone : widest.columns 1 = ⟨0x7FFFFFFD, 0x7FFFFFFE⟩ := hcolumns.span_eq 1 (by decide)
  refine ⟨hsampled, hone, ?_, ?_, ?_, hcolumns.tiling.card_eq 0 (by decide), (hbytes .rgba8).2⟩
  · rw [(hshifted 1).1, hone]
    decide
  · rw [← hone]
    exact hcolumns.span 1 (by decide)
  · have hcentre := hcolumns.centre 1 (by decide)
    rw [hcolumns.centre_eq 1 (by decide), hone] at hcentre
    exact hcentre

end Region

end ImageRegion
