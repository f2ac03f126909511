import Mathlib.Algebra.BigOperators.Intervals
import Mathlib.Algebra.BigOperators.Ring.Finset
import Mathlib.Algebra.Order.BigOperators.Group.Finset
import Mathlib.Algebra.Order.Round
import Mathlib.Data.Rat.Floor
import ImageRegion.Proofs.Pixel.Tallies

/-!
Blocks: the positions of a rectangle that stand behind one output pixel. The blocks of a rectangle
share it out between them. The average of a block is exact: it is weighted by opacity, rounded to
the nearest integer, and never leaves the range of what can be seen in the block.
-/

namespace ImageRegion

open Finset

abbrev Block := Finset (Nat × Nat)

namespace Block

def total (B : Block) (P : Nat → Nat → Pixel) (w : Pixel → Nat) : Nat := ∑ q ∈ B, w (P q.1 q.2)

def rounded (sum count : Nat) : Nat := (sum + count / 2) / count

def colours : List (Pixel → UInt8) := [Pixel.red, Pixel.green, Pixel.blue]

def average (B : Block) (P : Nat → Nat → Pixel) : Pixel :=
  let alpha := B.total P Pixel.opacity
  let colour (c : Pixel → UInt8) : UInt8 := .ofNat (rounded (B.total P (Pixel.tint c)) alpha)
  if alpha = 0 then .clear
  else ⟨colour Pixel.red, colour Pixel.green, colour Pixel.blue, .ofNat (rounded alpha B.card)⟩

/-- The pixel is the average of the block, with nothing lost on the way to its bytes. -/
structure Averaged (B : Block) (P : Nat → Nat → Pixel) (p : Pixel) : Prop where
  clear : B.total P Pixel.opacity = 0 → p = .clear
  alpha : 0 < B.total P Pixel.opacity →
    p.alpha.toNat = rounded (B.total P Pixel.opacity) B.card
  colour : 0 < B.total P Pixel.opacity → ∀ c ∈ colours,
    (c p).toNat = rounded (B.total P (Pixel.tint c)) (B.total P Pixel.opacity)
  above : 0 < B.total P Pixel.opacity → ∀ c ∈ colours,
    ∃ q ∈ B, 0 < (P q.1 q.2).opacity ∧ c (P q.1 q.2) ≤ c p
  below : 0 < B.total P Pixel.opacity → ∀ c ∈ colours,
    ∃ q ∈ B, 0 < (P q.1 q.2).opacity ∧ c p ≤ c (P q.1 q.2)

structure Tallied (B : Block) (P : Nat → Nat → Pixel) (t : Tally) : Prop where
  red : t.red.toNat = B.total P (Pixel.tint Pixel.red)
  green : t.green.toNat = B.total P (Pixel.tint Pixel.green)
  blue : t.blue.toNat = B.total P (Pixel.tint Pixel.blue)
  alpha : t.alpha.toNat = B.total P Pixel.opacity
  colours_fit : ∀ c ∈ colours,
    B.total P (Pixel.tint c) + B.total P Pixel.opacity / 2 < 2 ^ 64
  alpha_fits : B.total P Pixel.opacity + B.card / 2 < 2 ^ 64

variable {B : Block} {P : Nat → Nat → Pixel} {c : Pixel → UInt8}

theorem total_opacity_le : B.total P Pixel.opacity ≤ 255 * B.card :=
  calc B.total P Pixel.opacity
    _ ≤ ∑ _ ∈ B, 255 := Finset.sum_le_sum fun q _ => (P q.1 q.2).opacity_le
    _ = B.card * 255 := Finset.sum_const_nat fun _ _ => rfl
    _ = 255 * B.card := Nat.mul_comm _ _

theorem total_le {w : Pixel → Nat} {v : Nat}
    (h : ∀ q ∈ B, w (P q.1 q.2) ≤ v * (P q.1 q.2).opacity) :
    B.total P w ≤ v * B.total P Pixel.opacity := by
  unfold total
  rw [Finset.mul_sum]
  exact Finset.sum_le_sum h

theorem le_total {w : Pixel → Nat} {v : Nat}
    (h : ∀ q ∈ B, v * (P q.1 q.2).opacity ≤ w (P q.1 q.2)) :
    v * B.total P Pixel.opacity ≤ B.total P w := by
  unfold total
  rw [Finset.mul_sum]
  exact Finset.sum_le_sum h

theorem total_tint_le : B.total P (Pixel.tint c) ≤ 255 * B.total P Pixel.opacity :=
  total_le fun q _ => (P q.1 q.2).tint_le c

theorem rounded_eq_round {count : Nat} (h : 0 < count) (sum : Nat) :
    (rounded sum count : Int) = round ((sum : ℚ) / count) := by
  have hhalf : (sum : ℚ) / count + 1 / 2 = ((2 * sum + count : Nat) : ℚ) / (2 * count : Nat) := by
    have hne : (count : ℚ) ≠ 0 := by exact_mod_cast h.ne'
    push_cast
    field_simp
  rw [round_eq, hhalf, Rat.floor_natCast_div_natCast, ← Int.natCast_div, ← Nat.div_div_eq_div_mul]
  unfold rounded
  congr 2
  omega

theorem rounded_lt {sum count : Nat} (hcount : 0 < count) (h : sum ≤ 255 * count) :
    rounded sum count < 256 := by
  unfold rounded
  rw [Nat.div_lt_iff_lt_mul hcount]
  omega

theorem rounded_toNat {sum count : Nat} (hcount : 0 < count) (h : sum ≤ 255 * count) :
    (UInt8.ofNat (rounded sum count)).toNat = rounded sum count := by
  rw [UInt8.toNat_ofNat', Nat.mod_eq_of_lt (rounded_lt hcount h)]

theorem card_pos_of_total (h : 0 < B.total P Pixel.opacity) : 0 < B.card := by
  have := total_opacity_le (B := B) (P := P)
  omega

theorem exists_le_rounded (h : 0 < B.total P Pixel.opacity) :
    ∃ q ∈ B, 0 < (P q.1 q.2).opacity ∧ (c (P q.1 q.2)).toNat ≤
      rounded (B.total P (Pixel.tint c)) (B.total P Pixel.opacity) := by
  -- If all that can be seen were above the average, the sum would be too large for it.
  by_contra hnone
  push Not at hnone
  have hsum : (rounded (B.total P (Pixel.tint c)) (B.total P Pixel.opacity) + 1) *
      B.total P Pixel.opacity ≤ B.total P (Pixel.tint c) := by
    apply le_total
    intro q hq
    rcases Nat.eq_zero_or_pos (P q.1 q.2).opacity with hz | hp
    · rw [hz]
      omega
    · exact Nat.mul_le_mul_right _ (hnone q hq hp)
  have hquot := Nat.lt_div_mul_add h (a := B.total P (Pixel.tint c) + B.total P Pixel.opacity / 2)
  rw [Nat.succ_mul] at hsum
  unfold rounded at hsum
  omega

theorem exists_rounded_le (h : 0 < B.total P Pixel.opacity) :
    ∃ q ∈ B, 0 < (P q.1 q.2).opacity ∧
      rounded (B.total P (Pixel.tint c)) (B.total P Pixel.opacity) ≤ (c (P q.1 q.2)).toNat := by
  by_contra hnone
  push Not at hnone
  have hsum : B.total P (fun p => p.tint c + p.opacity) ≤
      rounded (B.total P (Pixel.tint c)) (B.total P Pixel.opacity) *
        B.total P Pixel.opacity := by
    apply total_le
    intro q hq
    rcases Nat.eq_zero_or_pos (P q.1 q.2).opacity with hz | hp
    · simp [Pixel.tint, hz]
    · have hlt := Nat.mul_le_mul_right (P q.1 q.2).opacity (hnone q hq hp)
      rw [Nat.succ_mul] at hlt
      exact hlt
  have hadd : B.total P (fun p => p.tint c + p.opacity) =
      B.total P (Pixel.tint c) + B.total P Pixel.opacity := Finset.sum_add_distrib
  have hquot := Nat.div_mul_le_self (B.total P (Pixel.tint c) + B.total P Pixel.opacity / 2)
    (B.total P Pixel.opacity)
  unfold rounded at hsum
  omega

theorem averaged_average (B : Block) (P : Nat → Nat → Pixel) : B.Averaged P (B.average P) := by
  have hcolour (h : 0 < B.total P Pixel.opacity) : ∀ c ∈ colours, (c (B.average P)).toNat =
      rounded (B.total P (Pixel.tint c)) (B.total P Pixel.opacity) := by
    intro c hc
    unfold average
    simp only [Nat.ne_of_gt h, if_false]
    simp only [colours, List.mem_cons, List.not_mem_nil, or_false] at hc
    rcases hc with rfl | rfl | rfl <;> exact rounded_toNat h total_tint_le
  constructor
  · intro h
    simp only [average, h, if_true]
  · intro h
    unfold average
    simp only [Nat.ne_of_gt h, if_false]
    exact rounded_toNat (card_pos_of_total h) total_opacity_le
  · exact hcolour
  · intro h c hc
    obtain ⟨q, hq, hv, hle⟩ := exists_le_rounded h (c := c)
    refine ⟨q, hq, hv, ?_⟩
    rw [UInt8.le_iff_toNat_le, hcolour h c hc]
    exact hle
  · intro h c hc
    obtain ⟨q, hq, hv, hle⟩ := exists_rounded_le h (c := c)
    refine ⟨q, hq, hv, ?_⟩
    rw [UInt8.le_iff_toNat_le, hcolour h c hc]
    exact hle

theorem tallied_counting (h : B.card ≤ 2 ^ 48) : B.Tallied P (Tally.counting (B.total P)) := by
  -- Each pixel adds less than 2 ^ 16 to a sum, half the opacity included.
  have halpha := total_opacity_le (B := B) (P := P)
  have hfit (c : Pixel → UInt8) : B.total P (Pixel.tint c) < 2 ^ 64 - 2 ^ 63 / 2 ^ 7 := by
    have := total_tint_le (B := B) (P := P) (c := c)
    omega
  have hword (n : Nat) (hn : n < 2 ^ 64) : (UInt64.ofNat n).toNat = n := by
    rw [UInt64.toNat_ofNat', Nat.mod_eq_of_lt hn]
  constructor
  · exact hword _ (by have := hfit Pixel.red; omega)
  · exact hword _ (by have := hfit Pixel.green; omega)
  · exact hword _ (by have := hfit Pixel.blue; omega)
  · exact hword _ (by omega)
  · intro c _
    have := hfit c
    omega
  · omega

theorem average_counting (h : B.card ≤ 2 ^ 48) :
    (Tally.counting (B.total P)).average (.ofNat B.card) = B.average P := by
  have ht := tallied_counting (P := P) h
  unfold Tally.average average
  by_cases ha : B.total P Pixel.opacity = 0
  · have hz : (Tally.counting (B.total P)).alpha = 0 := by
      apply UInt64.toNat_inj.mp
      rw [ht.alpha, ha]
      rfl
    simp only [hz, ha, if_true]
  · have hz : (Tally.counting (B.total P)).alpha ≠ 0 := by
      intro hz
      apply ha
      rw [← ht.alpha, hz]
      rfl
    have hp := Nat.pos_of_ne_zero ha
    have hcard := card_pos_of_total hp
    have hbyte {sum count : Nat} (hcount : 0 < count) (hle : sum ≤ 255 * count)
        (hfits : sum + count / 2 < 2 ^ 64) (hword : count < 2 ^ 64) :
        Tally.round (.ofNat sum) (.ofNat count) = .ofNat (rounded sum count) := by
      apply UInt8.toNat_inj.mp
      rw [Tally.round_toNat hfits hword (rounded_lt hcount hle), rounded_toNat hcount hle]
      rfl
    have hlt : B.total P Pixel.opacity < 2 ^ 64 := by
      have := ht.alpha_fits
      omega
    rw [if_neg hz, if_neg ha]
    simp only [Tally.counting]
    rw [hbyte hp total_tint_le (ht.colours_fit _ (by simp [colours])) hlt,
      hbyte hp total_tint_le (ht.colours_fit _ (by simp [colours])) hlt,
      hbyte hp total_tint_le (ht.colours_fit _ (by simp [colours])) hlt,
      hbyte hcard total_opacity_le ht.alpha_fits (by omega)]

end Block

end ImageRegion
