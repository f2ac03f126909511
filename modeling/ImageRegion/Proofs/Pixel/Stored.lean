import ImageRegion.Pixel.Coding

namespace ImageRegion

namespace Coding

def Stores (k : Coding) (x y : Nat) (p : Pixel) (bytes : Array UInt8) : Prop :=
  match k.format with
  | .rgba8 =>
    let colour (c : UInt8) : Nat :=
      if k.premultiply then (c.toNat * p.alpha.toNat + 127) / 255 else c.toNat
    bytes.map UInt8.toNat = #[colour p.red, colour p.green, colour p.blue, p.alpha.toNat]
  | .rgb565 =>
    let bias := if k.dither then Dither.threshold x y * 255 / 16 else 127
    let level (c : UInt8) (top : Nat) : Nat := (c.toNat * top + bias) / 255
    ∃ low high, bytes = #[low, high] ∧ low.toNat + 256 * high.toNat =
      level p.red 31 * 2048 + level p.green 63 * 32 + level p.blue 31
  | .gray8 =>
    bytes.map UInt8.toNat =
      #[(77 * p.red.toNat + 150 * p.green.toNat + 29 * p.blue.toNat) / 256]
  | .alpha8 => bytes = #[p.alpha]

end Coding

theorem Dither.bias_le (dither : Bool) (x y : Nat) : Dither.bias dither x y ≤ 254 := by
  have h : ∀ a < 4, ∀ b < 4, (Dither.rows.getD a []).getD b 0 ≤ 15 := by decide
  have ht : Dither.threshold x y ≤ 15 := h _ (Nat.mod_lt y (by decide)) _ (Nat.mod_lt x (by decide))
  unfold bias nearest
  split <;> omega

theorem quantize_le (top : Nat) (v : UInt8) {bias : Nat} (h : bias ≤ 254) :
    quantize top v bias ≤ top := by
  have hv := v.toNat_lt
  have hm : v.toNat * top ≤ 255 * top := Nat.mul_le_mul_right top (by omega)
  unfold quantize
  omega

theorem pack565_toNat {r g b : Nat} (hr : r ≤ 31) (hg : g ≤ 63) (hb : b ≤ 31) :
    ∃ low high, pack565 r g b = #[low, high] ∧
      low.toNat + 256 * high.toNat = r * 2048 + g * 32 + b := by
  refine ⟨_, _, rfl, ?_⟩
  simp only [UInt8.toNat_ofNat']
  omega

theorem Pixel.luma_toNat (p : Pixel) :
    p.luma.toNat = (77 * p.red.toNat + 150 * p.green.toNat + 29 * p.blue.toNat) / 256 := by
  have hr := p.red.toNat_lt
  have hg := p.green.toNat_lt
  have hb := p.blue.toNat_lt
  simp only [luma, UInt8.toNat_ofNat']
  omega

theorem Coding.stores_pixel (k : Coding) (x y : Nat) (p : Pixel) :
    k.Stores x y p (k.pixel x y p) := by
  unfold Stores pixel
  cases k.format with
  | rgba8 =>
    cases k.premultiply with
    | false => simp
    | true =>
      by_cases ha : p.alpha = 255
      · -- An opaque pixel is stored as it is, which the general rule comes to as well.
        have h (c : UInt8) : (c.toNat * 255 + 127) / 255 = c.toNat := by omega
        simp [ha, h]
      · simp [ha, premultiply_toNat]
  | rgb565 =>
    have hb := Dither.bias_le k.dither x y
    exact pack565_toNat (quantize_le 31 p.red hb) (quantize_le 63 p.green hb)
      (quantize_le 31 p.blue hb)
  | gray8 => simp [Pixel.luma_toNat]
  | alpha8 => rfl

end ImageRegion
