import Mathlib.Tactic.IntervalCases
import ImageRegion.Proofs.Image.Delivery

namespace ImageRegion

def View.row (v : View) (y : Nat) : Array Pixel :=
  v.pixels.extract (y * v.width) (y * v.width + v.width)

/-- A level of `k` bits fills a byte up with its own top bits. The nearest level to that byte is the
level itself. -/
theorem quantize_replicated {k level : Nat} (hk : 4 ≤ k) (hk' : k ≤ 8) (h : level < 2 ^ k) :
    quantize (2 ^ k - 1) (.ofNat (level * 2 ^ (8 - k) + level / 2 ^ (2 * k - 8)))
      Dither.nearest = level := by
  have hbyte : level * 2 ^ (8 - k) + level / 2 ^ (2 * k - 8) < 2 ^ 8 := by
    interval_cases k <;> omega
  unfold quantize Dither.nearest
  rw [UInt8.toNat_ofNat_of_lt' hbyte]
  interval_cases k <;> omega

theorem pack565_levels (low high : UInt8) :
    let code := low.toNat + high.toNat * 256
    pack565 (code / 2048) (code / 32 % 64) (code % 32) = #[low, high] := by
  intro code
  have hlow := low.toNat_lt
  have hhigh := high.toNat_lt
  have hcode : code / 2048 * 2048 + code / 32 % 64 * 32 + code % 32 = code := by omega
  have hfirst : UInt8.ofNat (code % 256) = low := by
    rw [show code % 256 = low.toNat by omega, UInt8.ofNat_toNat]
  have hsecond : UInt8.ofNat (code / 256) = high := by
    rw [show code / 256 = high.toNat by omega, UInt8.ofNat_toNat]
  simp only [pack565, hcode, hfirst, hsecond]

namespace PixelFormat

variable {f : PixelFormat} {bytes : Array UInt8} {count : Nat}

theorem getElem?_pixels (h : bytes.size = count * f.bytesPerPixel) {i : Nat} (hi : i < count) :
    (f.pixels bytes)[i]? = some (f.pixelAt bytes (i * f.bytesPerPixel)) := by
  have hcount : bytes.size / f.bytesPerPixel = count := by
    rw [h, Nat.mul_div_cancel _ f.bytesPerPixel_pos]
  rw [pixels, Array.getElem?_ofFn, dif_pos (by omega)]

theorem pixelAt_extract {first stop i : Nat} (h : first + i + f.bytesPerPixel ≤ stop) :
    f.pixelAt (bytes.extract first stop) i = f.pixelAt bytes (first + i) := by
  have hbyte (k : Nat) (hk : k < f.bytesPerPixel) :
      (bytes.extract first stop).getD (i + k) 0 = bytes.getD (first + i + k) 0 := by
    rw [Packing.getD_extract _ (by omega), Nat.add_assoc]
  cases f with
  | rgba8 =>
    simp only [pixelAt, hbyte 0 (by decide), hbyte 1 (by decide), hbyte 2 (by decide),
      hbyte 3 (by decide)]
  | rgb565 => simp only [pixelAt, hbyte 0 (by decide), hbyte 1 (by decide)]
  | gray8 => simp only [pixelAt, hbyte 0 (by decide)]
  | alpha8 => simp only [pixelAt, hbyte 0 (by decide)]

theorem extract_pixels (h : bytes.size = count * f.bytesPerPixel) {first stop : Nat}
    (hstop : stop ≤ count) :
    (f.pixels bytes).extract first stop =
      f.pixels (bytes.extract (first * f.bytesPerPixel) (stop * f.bytesPerPixel)) := by
  have hend : stop * f.bytesPerPixel ≤ bytes.size := h ▸ Nat.mul_le_mul_right _ hstop
  have hall : (f.pixels bytes).size = count := by
    rw [pixels, Array.size_ofFn, h, Nat.mul_div_cancel _ f.bytesPerPixel_pos]
  have hpart : (bytes.extract (first * f.bytesPerPixel) (stop * f.bytesPerPixel)).size =
      (stop - first) * f.bytesPerPixel := by
    rw [Array.size_extract, Nat.min_eq_left hend, Nat.sub_mul]
  apply Array.ext_getElem?
  intro i
  rw [Array.getElem?_extract, hall, Nat.min_eq_left hstop]
  by_cases hi : i < stop - first
  · have hlast : first * f.bytesPerPixel + i * f.bytesPerPixel + f.bytesPerPixel ≤
        stop * f.bytesPerPixel := by
      rw [← Nat.add_mul, ← Nat.succ_mul]
      exact Nat.mul_le_mul_right _ (by omega)
    rw [if_pos hi, getElem?_pixels h (by omega), getElem?_pixels hpart hi, pixelAt_extract hlast,
      Nat.add_mul]
  · rw [if_neg hi, Array.getElem?_eq_none]
    rw [pixels, Array.size_ofFn, hpart, Nat.mul_div_cancel _ f.bytesPerPixel_pos]
    omega

end PixelFormat

namespace Coding

def plain (f : PixelFormat) : Coding := ⟨f, false, false⟩

theorem pixel_pixelAt (f : PixelFormat) {bytes : Array UInt8} {i : Nat}
    (h : i + f.bytesPerPixel ≤ bytes.size) (x y : Nat) :
    (plain f).pixel x y (f.pixelAt bytes i) = bytes.extract i (i + f.bytesPerPixel) := by
  rw [Packing.extract_eq_ofFn h 0]
  cases f with
  | rgba8 => rfl
  | rgb565 =>
    have hlow := (bytes.getD i 0).toNat_lt
    have hhigh := (bytes.getD (i + 1) 0).toNat_lt
    simp only [plain, pixel, PixelFormat.pixelAt, Dither.bias, Bool.false_eq_true, if_false,
      Nat.add_zero]
    have hfive {level : Nat} (h : level < 32) :
        quantize 31 (.ofNat (level * 8 + level / 4)) Dither.nearest = level :=
      quantize_replicated (k := 5) (by decide) (by decide) h
    have hsix {level : Nat} (h : level < 64) :
        quantize 63 (.ofNat (level * 4 + level / 16)) Dither.nearest = level :=
      quantize_replicated (k := 6) (by decide) (by decide) h
    rw [hfive (by omega), hsix (by omega), hfive (by omega)]
    exact pack565_levels _ _
  | gray8 => exact congrArg (fun v => #[v]) (Pixel.luma_gray _)
  | alpha8 => rfl

def image (k : Coding) (v : View) : Array UInt8 :=
  (Array.range v.height).flatMap fun y => k.row y (v.row y)

theorem row_pixels (f : PixelFormat) {bytes : Array UInt8} {count : Nat}
    (h : bytes.size = count * f.bytesPerPixel) (y : Nat) :
    (plain f).row y (f.pixels bytes) = bytes := by
  have hpos := f.bytesPerPixel_pos
  have hcount : (f.pixels bytes).size = count := by
    rw [PixelFormat.pixels, Array.size_ofFn, h, Nat.mul_div_cancel _ hpos]
  have hsize : ((plain f).row y (f.pixels bytes)).size = bytes.size := by
    rw [Coding.size_row, hcount, h]
    rfl
  apply Array.ext_getElem?
  intro j
  by_cases hj : j < bytes.size
  · -- Byte `j` is one of the bytes of the pixel at column `x`.
    obtain ⟨x, i, hi, rfl⟩ : ∃ x i, i < f.bytesPerPixel ∧ x * f.bytesPerPixel + i = j :=
      ⟨_, _, Nat.mod_lt j hpos, Nat.div_add_mod' ..⟩
    have hx : x < count := by
      rw [h] at hj
      exact Nat.lt_of_mul_lt_mul_right (Nat.lt_of_le_of_lt (Nat.le_add_right _ i) hj)
    have hend : x * f.bytesPerPixel + f.bytesPerPixel ≤ bytes.size := by
      rw [h, ← Nat.succ_mul]
      exact Nat.mul_le_mul_right _ hx
    have hpixel : (f.pixels bytes)[x]? = some (f.pixelAt bytes (x * f.bytesPerPixel)) :=
      PixelFormat.getElem?_pixels h hx
    have hbyte : ((plain f).row y (f.pixels bytes))[x * f.bytesPerPixel + i]? = _ :=
      getElem?_row (k := plain f) hpixel hi
    rw [hbyte, pixel_pixelAt f hend, Array.getElem?_extract, if_pos (by omega)]
  · rw [Array.getElem?_eq_none (by omega), Array.getElem?_eq_none (by omega)]

theorem row_plain_rgba8 (y : Nat) (pixels : Array Pixel) :
    (plain .rgba8).row y pixels = pixels.flatMap fun p => #[p.red, p.green, p.blue, p.alpha] := by
  have hcolumns : (pixels.zipIdx.map Prod.fst).flatMap
      (fun p => #[p.red, p.green, p.blue, p.alpha]) = (plain .rgba8).row y pixels :=
    Array.flatMap_map
  rw [← hcolumns, Array.zipIdx_map_fst]

end Coding

namespace Bitmap

variable {b : Bitmap}

theorem size_bytes (h : b.byteLength ≤ b.capacity) :
    b.bytes.size = b.width * b.height * b.format.bytesPerPixel := by
  have hlength := b.byteLength_eq
  have hfits : b.byteLength ≤ b.storage.size := h
  rw [bytes, Array.size_extract]
  omega

theorem row?_eq_extract_bytes {y : Nat} (hy : y < b.height) :
    b.row? y = .ok (b.bytes.extract (y * b.stride) (y * b.stride + b.stride)) := by
  have hend : y * b.stride + b.stride ≤ b.byteLength := Word.row_end_le b.stride hy
  rw [row?, if_pos hy, bytes, Array.extract_extract, Nat.zero_add, Nat.zero_add,
    Nat.min_eq_left hend]

theorem row_expanded (h : b.byteLength ≤ b.capacity) {y : Nat} (hy : y < b.height) (number : Nat) :
    (Coding.plain b.format).row number
        ((b.format.pixels b.bytes).extract (y * b.width) (y * b.width + b.width)) =
      b.bytes.extract (y * b.stride) (y * b.stride + b.stride) := by
  have hsize := size_bytes h
  have hend : y * b.width + b.width ≤ b.width * b.height := Word.row_end_le b.width hy
  have hfits : (y * b.width + b.width) * b.format.bytesPerPixel ≤ b.bytes.size :=
    hsize ▸ Nat.mul_le_mul_right _ hend
  have hcut : (b.bytes.extract (y * b.width * b.format.bytesPerPixel)
      ((y * b.width + b.width) * b.format.bytesPerPixel)).size =
      b.width * b.format.bytesPerPixel := by
    rw [Array.size_extract, Nat.min_eq_left hfits, Nat.add_mul, Nat.add_sub_cancel_left]
  rw [PixelFormat.extract_pixels hsize hend, Coding.row_pixels b.format hcut, Nat.add_mul,
    Nat.mul_assoc]
  rfl

/-- An expanded bitmap has the pixels of the bitmap row after row, and its rows, written plainly in
the format of the bitmap, are the bytes of the bitmap. If the bitmap stores pixels in full, the
expanded bitmap is its view. -/
theorem rewriting_expanded (hwidth : 0 < b.width) (hfits : b.byteLength ≤ b.capacity) :
    ∃ v, b.expand = .ok v ∧ v.width = b.width ∧ v.height = b.height ∧
      v.pixels.size = b.width * b.height ∧
      (∀ x < b.width, ∀ y < b.height,
        v.pixels[y * b.width + x]? = some (b.format.pixelAt (b.pixelBytes x y) 0)) ∧
      (∀ y < b.height, ∀ number, b.row? y = .ok ((Coding.plain b.format).row number (v.row y))) ∧
      (Coding.plain b.format).image v = b.bytes ∧
      (b.format = .rgba8 → b.view? = some (.ok v) ∧
        v.pixels.flatMap (fun p => #[p.red, p.green, p.blue, p.alpha]) = b.bytes) ∧
      (b.format ≠ .rgba8 → b.view? = none) := by
  let v : View := ⟨b.width, b.height, b.format.pixels b.bytes⟩
  have hsize := size_bytes hfits
  have hexpand : b.expand = .ok v := if_neg (Nat.ne_of_gt hwidth)
  have hrows (y : Nat) (hy : y < b.height) (number : Nat) :
      (Coding.plain b.format).row number (v.row y) =
        b.bytes.extract (y * b.stride) (y * b.stride + b.stride) :=
    row_expanded hfits hy number
  refine ⟨v, hexpand, rfl, rfl, ?size, ?pixels, ?rows, ?image, ?view, fun hne => if_neg hne⟩
  case size =>
    show (b.format.pixels b.bytes).size = _
    rw [PixelFormat.pixels, Array.size_ofFn, hsize, Nat.mul_div_cancel _ b.format.bytesPerPixel_pos]
  case pixels =>
    intro x hx y hy
    have hrow := Word.row_end_le b.width hy
    have hpixel : (b.format.pixels b.bytes)[y * b.width + x]? = some _ :=
      PixelFormat.getElem?_pixels hsize (by omega)
    have hwithin : (y * b.width + x) * b.format.bytesPerPixel + 0 + b.format.bytesPerPixel ≤
        (y * b.width + x + 1) * b.format.bytesPerPixel := by
      apply Nat.le_of_eq
      rw [Nat.add_zero, Nat.succ_mul]
    rw [hpixel, pixelBytes, PixelFormat.pixelAt_extract hwithin, Nat.add_zero]
  case rows =>
    intro y hy number
    rw [row?_eq_extract_bytes hy, hrows y hy number]
  case image =>
    have hlines : (Array.range b.height).map (fun y => (Coding.plain b.format).row y (v.row y)) =
        (Array.range b.height).map
          fun y => b.bytes.extract (y * b.stride) (y * b.stride + b.stride) :=
      Array.map_congr_left fun y hy => hrows y (Array.mem_range.mp hy) y
    have hall : b.height * b.stride = b.bytes.size := by
      rw [hsize, Nat.mul_comm b.width, Nat.mul_assoc]
      rfl
    have hjoined := Packing.flatMap_extract b.bytes b.height b.stride
    rw [hall, Array.extract_size, Array.flatMap_def, ← hlines, ← Array.flatMap_def] at hjoined
    exact hjoined
  case view =>
    intro hformat
    have hbytes := Coding.row_pixels b.format hsize 0
    rw [hformat, Coding.row_plain_rgba8] at hbytes
    refine ⟨(if_pos hformat).trans (congrArg some hexpand), ?_⟩
    show (b.format.pixels b.bytes).flatMap _ = _
    rw [hformat]
    exact hbytes

theorem rewriting_expanded_of_pair :
    let b : Bitmap := ⟨2, 1, .rgb565, true, 7, #[0x34, 0x12, 0xE0, 0x07, 0xAA]⟩
    ∃ v, b.expand = .ok v ∧ v.pixels[0]? = some ⟨16, 69, 165, 255⟩ ∧
      (Coding.plain .rgb565).image v = #[0x34, 0x12, 0xE0, 0x07] := by
  intro b
  obtain ⟨v, hexpand, _, _, _, hpixels, _, himage, _⟩ :=
    rewriting_expanded (b := b) (by decide) (by decide)
  have hfirst := hpixels 0 (by decide) 0 (by decide)
  exact ⟨v, hexpand, hfirst.trans (by decide), himage⟩

end Bitmap

end ImageRegion
