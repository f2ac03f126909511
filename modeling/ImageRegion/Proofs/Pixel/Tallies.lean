import Mathlib.Algebra.BigOperators.Intervals
import ImageRegion.Pixel.Average

namespace ImageRegion

open Finset

namespace Pixel

def opacity (p : Pixel) : Nat := p.alpha.toNat

def tint (colour : Pixel → UInt8) (p : Pixel) : Nat := (colour p).toNat * p.opacity

theorem opacity_le (p : Pixel) : p.opacity ≤ 255 := by
  have := p.alpha.toNat_lt
  unfold opacity
  omega

theorem tint_le (colour : Pixel → UInt8) (p : Pixel) : p.tint colour ≤ 255 * p.opacity := by
  have := (colour p).toNat_lt
  apply Nat.mul_le_mul_right
  omega

end Pixel

namespace Tally

/-- The tally of pixels over which a measure `w` sums to `sum w`. -/
def counting (sum : (Pixel → Nat) → Nat) : Tally :=
  ⟨.ofNat (sum (Pixel.tint Pixel.red)), .ofNat (sum (Pixel.tint Pixel.green)),
    .ofNat (sum (Pixel.tint Pixel.blue)), .ofNat (sum Pixel.opacity)⟩

theorem counting_zero : counting (fun _ => 0) = zero := rfl

theorem counting_add (sum : (Pixel → Nat) → Nat) (p : Pixel) :
    (counting sum).add p = counting fun w => sum w + w p := by
  have hword (v : UInt8) : v.toUInt64 = UInt64.ofNat v.toNat := by
    apply UInt64.toNat_inj.mp
    have := v.toNat_lt
    simp only [UInt8.toNat_toUInt64, UInt64.toNat_ofNat']
    omega
  simp only [add, counting, hword, UInt64.ofNat_add, UInt64.ofNat_mul, Pixel.tint, Pixel.opacity]

theorem counting_foldl {row : Array Pixel} {pixel : Nat → Pixel} {first stop : Nat}
    (hstop : stop ≤ row.size) (hpixel : ∀ i, (h : i < row.size) → row[i] = pixel i)
    (hfirst : first ≤ stop) (sum : (Pixel → Nat) → Nat) :
    (row.extract first stop).foldl add (counting sum) =
      counting fun w => sum w + ∑ i ∈ Ico first stop, w (pixel i) := by
  induction stop, hfirst using Nat.le_induction with
  | base =>
    rw [Array.extract_empty_of_stop_le_start (Nat.le_refl _), Array.foldl_empty]
    simp
  | succ stop hfirst ih =>
    have hlt : stop < row.size := by omega
    have hpush : row.extract first (stop + 1) = (row.extract first stop).push row[stop] := by
      rw [Array.push_extract_getElem, Nat.min_eq_left hfirst]
    rw [hpush, Array.foldl_push, ih (by omega), counting_add, hpixel stop hlt]
    congr 1
    funext w
    rw [Finset.sum_Ico_succ_top hfirst, Nat.add_assoc]

theorem round_toNat {sum count : Nat} (hfits : sum + count / 2 < 2 ^ 64)
    (hcount : count < 2 ^ 64) (hbyte : (sum + count / 2) / count < 256) :
    (round (.ofNat sum) (.ofNat count)).toNat = (sum + count / 2) / count := by
  have hsum : sum < 2 ^ 64 := by omega
  simp only [round, UInt64.toNat_toUInt8, UInt64.toNat_div, UInt64.toNat_add,
    UInt64.toNat_ofNat', UInt64.toNat_ofNat, Nat.mod_eq_of_lt hsum, Nat.mod_eq_of_lt hcount]
  rw [Nat.mod_eq_of_lt hfits, Nat.mod_eq_of_lt hbyte]

end Tally

end ImageRegion
