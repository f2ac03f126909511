import ImageRegion.Pixel.Format

/-!
How a pixel is written in each format, and read back.

An RGB565 level is a quotient with a bias. Without dithering the bias rounds to the nearest level;
with it, the bias is one of sixteen thresholds that a cell of four by four pixels holds once each.
-/

namespace ImageRegion

def premultiply (c a : UInt8) : UInt8 := UInt8.ofNat ((c.toNat * a.toNat + 127) / 255)

theorem premultiply_toNat (c a : UInt8) :
    (premultiply c a).toNat = (c.toNat * a.toNat + 127) / 255 := by
  have hc := c.toNat_lt
  have ha := a.toNat_lt
  have h : c.toNat * a.toNat ≤ 255 * 255 := Nat.mul_le_mul (by omega) (by omega)
  simp only [premultiply, UInt8.toNat_ofNat']
  omega

/-- The brightness of a pixel; the weights sum to 256, so a gray pixel keeps its value. -/
def Pixel.luma (p : Pixel) : UInt8 :=
  UInt8.ofNat ((77 * p.red.toNat + 150 * p.green.toNat + 29 * p.blue.toNat) / 256)

theorem Pixel.luma_gray (v : UInt8) : (Pixel.gray v).luma = v := by
  apply UInt8.toNat_inj.mp
  have hv := v.toNat_lt
  simp only [luma, gray, UInt8.toNat_ofNat']
  omega

namespace Dither

def rows : List (List Nat) :=
  [[0, 8, 2, 10], [12, 4, 14, 6], [3, 11, 1, 9], [15, 7, 13, 5]]

def threshold (x y : Nat) : Nat := ((rows.getD (y % 4) []).getD (x % 4) 0)

def nearest : Nat := 127

def bias (dither : Bool) (x y : Nat) : Nat :=
  if dither then threshold x y * 255 / 16 else nearest

end Dither

def quantize (top : Nat) (v : UInt8) (bias : Nat) : Nat := (v.toNat * top + bias) / 255

def pack565 (r g b : Nat) : Array UInt8 :=
  let code := r * 2048 + g * 32 + b
  #[UInt8.ofNat (code % 256), UInt8.ofNat (code / 256)]

structure Coding where
  format : PixelFormat
  premultiply : Bool
  dither : Bool
  deriving DecidableEq

namespace Coding

def pixel (k : Coding) (x y : Nat) (p : Pixel) : Array UInt8 :=
  match k.format with
  | .rgba8 =>
    if k.premultiply && p.alpha != 255 then
      #[ImageRegion.premultiply p.red p.alpha, ImageRegion.premultiply p.green p.alpha,
        ImageRegion.premultiply p.blue p.alpha, p.alpha]
    else #[p.red, p.green, p.blue, p.alpha]
  | .rgb565 =>
    let bias := Dither.bias k.dither x y
    pack565 (quantize 31 p.red bias) (quantize 63 p.green bias) (quantize 31 p.blue bias)
  | .gray8 => #[p.luma]
  | .alpha8 => #[p.alpha]

theorem size_pixel (k : Coding) (x y : Nat) (p : Pixel) :
    (k.pixel x y p).size = k.format.bytesPerPixel := by
  unfold pixel
  cases k.format <;> simp only [PixelFormat.bytesPerPixel, pack565]
  · split <;> rfl
  · rfl
  · rfl
  · rfl

def row (k : Coding) (y : Nat) (pixels : Array Pixel) : Array UInt8 :=
  pixels.zipIdx.flatMap fun (p, x) => k.pixel x y p

end Coding

namespace PixelFormat

def pixelAt (f : PixelFormat) (bytes : Array UInt8) (i : Nat) : Pixel :=
  let byte k := bytes.getD (i + k) 0
  match f with
  | .rgba8 => ⟨byte 0, byte 1, byte 2, byte 3⟩
  | .rgb565 =>
    let code := (byte 0).toNat + (byte 1).toNat * 256
    let r := code / 2048
    let g := code / 32 % 64
    let b := code % 32
    ⟨UInt8.ofNat (r * 8 + r / 4), UInt8.ofNat (g * 4 + g / 16), UInt8.ofNat (b * 8 + b / 4), 255⟩
  | .gray8 => .gray (byte 0)
  | .alpha8 => ⟨0, 0, 0, byte 0⟩

def pixels (f : PixelFormat) (bytes : Array UInt8) : Array Pixel :=
  Array.ofFn fun i : Fin (bytes.size / f.bytesPerPixel) =>
    f.pixelAt bytes (i * f.bytesPerPixel)

end PixelFormat

end ImageRegion
