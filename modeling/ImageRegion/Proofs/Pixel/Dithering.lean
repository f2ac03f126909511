import Mathlib.Algebra.BigOperators.Intervals
import ImageRegion.Proofs.Cancellation

namespace ImageRegion

open Finset

inductive Colour
  | red
  | green
  | blue

namespace Colour

def sample : Colour → Pixel → UInt8
  | .red => Pixel.red
  | .green => Pixel.green
  | .blue => Pixel.blue

def top : Colour → Nat
  | .green => 63
  | .red | .blue => 31

def level : Colour → Nat → Nat
  | .red, code => code / 2048
  | .green, code => code / 32 % 64
  | .blue, code => code % 32

def levelAt (c : Colour) (bytes : Array UInt8) (i : Nat) : Nat :=
  c.level ((bytes.getD (i * 2) 0).toNat + 256 * (bytes.getD (i * 2 + 1) 0).toNat)

def levelIn (c : Colour) (b : Bitmap) (x y : Nat) : Nat :=
  match b.row? y with
  | .ok row => c.levelAt row x
  | .error _ => 0

theorem level_code (c : Colour) (r : Nat) {g b : Nat} (hg : g ≤ 63) (hb : b ≤ 31) :
    c.level (r * 2048 + g * 32 + b) = match c with | .red => r | .green => g | .blue => b := by
  cases c with
  | red => simp only [level]; omega
  | green => simp only [level]; omega
  | blue => simp only [level]; omega

end Colour

/-- Sums of quotients over all remainders: each unit more is carried by just one of them. -/
theorem Word.sum_range_add_div {n : Nat} (hn : 0 < n) (q : Nat) :
    ∑ t ∈ range n, (q + t) / n = q := by
  induction q with
  | zero =>
    apply Finset.sum_eq_zero
    intro t ht
    rw [Nat.zero_add]
    exact Nat.div_eq_of_lt (mem_range.mp ht)
  | succ q ih =>
    have hlast := Finset.sum_range_succ (fun t => (q + t) / n) n
    have hfirst := Finset.sum_range_succ' (fun t => (q + t) / n) n
    have hcarry : (q + n) / n = q / n + 1 := Nat.add_div_right q hn
    have hshift : ∑ t ∈ range n, (q + 1 + t) / n = ∑ t ∈ range n, (q + (t + 1)) / n := by
      apply Finset.sum_congr rfl
      intro t _
      rw [Nat.add_assoc, Nat.add_comm 1 t]
    rw [hshift]
    simp only [Nat.add_zero] at hfirst
    omega

namespace Dither

theorem threshold_mod (x y i j : Nat) :
    threshold (x % 4 + i) (y % 4 + j) = threshold (x + i) (y + j) := by
  unfold threshold
  rw [Nat.mod_add_mod, Nat.mod_add_mod]

theorem map_threshold (x y : Nat) :
    (range 4 ×ˢ range 4).val.map (fun d => threshold (x + d.2) (y + d.1)) = Multiset.range 16 := by
  have hcells : ∀ a < 4, ∀ b < 4,
      (range 4 ×ˢ range 4).val.map (fun d => threshold (a + d.2) (b + d.1)) =
        Multiset.range 16 := by decide
  have hcell := hcells (x % 4) (Nat.mod_lt x (by decide)) (y % 4) (Nat.mod_lt y (by decide))
  simp only [threshold_mod] at hcell
  exact hcell

theorem sum_threshold (f : Nat → Nat) (x y : Nat) :
    ∑ j ∈ range 4, ∑ i ∈ range 4, f (threshold (x + i) (y + j)) = ∑ t ∈ range 16, f t := by
  rw [← Finset.sum_product']
  have hmap := congrArg (fun m => (Multiset.map f m).sum) (map_threshold x y)
  simp only [Multiset.map_map] at hmap
  exact hmap

end Dither

section Levels

variable {v w : UInt8} {bias x y : Nat} {c : Colour}

theorem quantize_bounds (c : Colour) (v : UInt8) (h : bias ≤ 254) :
    quantize c.top v bias = v.toNat * c.top / 255 ∨
      quantize c.top v bias = v.toNat * c.top / 255 + 1 := by
  unfold quantize
  omega

theorem quantize_zero (c : Colour) (h : bias ≤ 254) : quantize c.top 0 bias = 0 := by
  unfold quantize
  simp only [UInt8.toNat_zero]
  omega

theorem quantize_greatest (c : Colour) (h : bias ≤ 254) : quantize c.top 255 bias = c.top := by
  unfold quantize
  rw [show (255 : UInt8).toNat = 255 from rfl]
  omega

theorem quantize_mono (top : Nat) (h : v ≤ w) (bias : Nat) :
    quantize top v bias ≤ quantize top w bias := by
  apply Nat.div_le_div_right
  apply Nat.add_le_add_right
  exact Nat.mul_le_mul_right top h

theorem quantize_nearest (top : Nat) (v : UInt8) (x y : Nat) :
    255 * quantize top v (Dither.bias false x y) ≤ v.toNat * top + 127 ∧
      v.toNat * top ≤ 255 * quantize top v (Dither.bias false x y) + 127 := by
  unfold quantize Dither.bias Dither.nearest
  simp only [Bool.false_eq_true, if_false]
  omega

theorem quantize_threshold (top : Nat) (v : UInt8) (x y : Nat) :
    quantize top v (Dither.bias true x y) =
      (16 * (v.toNat * top) / 255 + Dither.threshold x y) / 16 := by
  unfold quantize Dither.bias
  simp only [if_true]
  omega

theorem sum_quantize (top : Nat) (v : UInt8) (x y : Nat) :
    ∑ j ∈ range 4, ∑ i ∈ range 4, quantize top v (Dither.bias true (x + i) (y + j)) =
      16 * (v.toNat * top) / 255 := by
  simp only [quantize_threshold]
  rw [Dither.sum_threshold fun t => (16 * (v.toNat * top) / 255 + t) / 16]
  exact Word.sum_range_add_div (by decide) _

end Levels

namespace Coding

variable {k : Coding} {row : Array Pixel} {p : Pixel} {x y : Nat}

theorem levelAt_row (hk : k.format = .rgb565) (c : Colour) (h : row[x]? = some p) :
    c.levelAt (k.row y row) x = quantize c.top (c.sample p) (Dither.bias k.dither x y) := by
  have hb := Dither.bias_le k.dither x y
  obtain ⟨low, high, hbytes, hcode⟩ := pack565_toNat (quantize_le 31 p.red hb)
    (quantize_le 63 p.green hb) (quantize_le 31 p.blue hb)
  have hpixel : k.pixel x y p = #[low, high] := by
    unfold pixel
    rw [hk]
    exact hbytes
  have hlow := getElem?_row (k := k) (y := y) h (i := 0) (by rw [hk]; decide)
  have hhigh := getElem?_row (k := k) (y := y) h (i := 1) (by rw [hk]; decide)
  rw [hk, hpixel] at hlow hhigh
  simp only [PixelFormat.bytesPerPixel, Nat.add_zero] at hlow hhigh
  unfold Colour.levelAt
  rw [Array.getD_eq_getD_getElem?, Array.getD_eq_getD_getElem?, hlow, hhigh]
  refine (congrArg c.level hcode).trans ?_
  rw [Colour.level_code c _ (quantize_le 63 p.green hb) (quantize_le 31 p.blue hb)]
  cases c <;> rfl

def Wrote (k : Coding) (fed : Nat → Array Pixel) (b : Bitmap) : Prop :=
  ∀ y < b.height, b.row? y = .ok (k.row y (fed y))

theorem Wrote.levelIn {fed : Nat → Array Pixel} {b : Bitmap} (hw : k.Wrote fed b) (c : Colour)
    (hy : y < b.height) : c.levelIn b x y = c.levelAt (k.row y (fed y)) x := by
  unfold Colour.levelIn
  rw [hw y hy]

def Flat (fed : Nat → Array Pixel) (c : Colour) (v : UInt8) (x y : Nat) : Prop :=
  ∀ i < 4, ∀ j < 4, ∃ p, (fed (y + j))[x + i]? = some p ∧ c.sample p = v

theorem sum_levelAt (hk : k.format = .rgb565) (hd : k.dither = true) {fed : Nat → Array Pixel}
    {c : Colour} {v : UInt8} (h : Flat fed c v x y) :
    ∑ j ∈ range 4, ∑ i ∈ range 4, c.levelAt (k.row (y + j) (fed (y + j))) (x + i) =
      16 * (v.toNat * c.top) / 255 := by
  rw [← sum_quantize c.top v x y]
  apply Finset.sum_congr rfl
  intro j hj
  apply Finset.sum_congr rfl
  intro i hi
  obtain ⟨p, hp, rfl⟩ := h i (mem_range.mp hi) j (mem_range.mp hj)
  rw [levelAt_row hk c hp, hd]

theorem sum_levelIn (hk : k.format = .rgb565) (hd : k.dither = true) {fed : Nat → Array Pixel}
    {b : Bitmap} (hw : k.Wrote fed b) {c : Colour} {v : UInt8} (hy : y + 4 ≤ b.height)
    (h : Flat fed c v x y) :
    ∑ j ∈ range 4, ∑ i ∈ range 4, c.levelIn b (x + i) (y + j) =
      16 * (v.toNat * c.top) / 255 := by
  rw [← sum_levelAt hk hd h]
  apply Finset.sum_congr rfl
  intro j hj
  have hrow : y + j < b.height := by
    have := mem_range.mp hj
    omega
  simp only [hw.levelIn c hrow]

end Coding

namespace Image

variable {im : Image} {rect : Rect} {o : Options} {stop : Stop} {r : Region} {b : Bitmap}

def fed (im : Image) (r : Region) (o : Options) (y : Nat) : Array Pixel :=
  match (o.painting r).sampled (im.rows r o) y with
  | .ok row => row
  | .error _ => #[]

theorem wrote_overwrite (h : (o.painting r).Paintable (im.rows r o)) (b : Bitmap) :
    Coding.Wrote ⟨r.format, o.premultiplied, o.dither⟩ (im.fed r o)
      ((b.shaped r o).overwrite ((o.painting r).band (im.rows r o) r.height)) := by
  intro y hy
  obtain ⟨row, hrow⟩ := h y hy
  have hline : (o.painting r).line (im.rows r o) y =
      Coding.row ⟨r.format, o.premultiplied, o.dither⟩ y (im.fed r o y) := by
    simp only [Painting.line, fed, hrow]
    rfl
  rw [Bitmap.row?_overwrite_band h (Nat.le_refl _) hy, hline]

theorem written_of_finished (h : (im.paint r o stop).ending = .finished) :
    (im.paint r o stop).written = (o.painting r).band (im.rows r o) r.height := by
  rcases paint_ended (paintable_of_finished h) stop with
    ⟨_, _, hwritten, _⟩ | ⟨_, _, _, _, _, hcancelled, _⟩
  · exact hwritten
  · rw [h] at hcancelled
    cases hcancelled

theorem decode_wrote (h : (im.decode rect o stop).1.result = .ok (.decoded (b, r))) :
    b.height = r.height ∧
      Coding.Wrote ⟨r.format, o.premultiplied, o.dither⟩ (im.fed r o) b := by
  obtain ⟨_, hended, storage, _, rfl⟩ := decode_decoded h
  rw [written_of_finished hended]
  exact ⟨rfl, wrote_overwrite (paintable_of_finished hended) (.ofStorage storage 0 0 .rgba8 false)⟩

theorem decodeInto_wrote {target : Bitmap}
    (h : (im.decodeInto rect o target stop).1.result = .ok (.decoded r)) :
    (im.decodeInto rect o target stop).2.1.height = r.height ∧
      Coding.Wrote ⟨r.format, o.premultiplied, o.dither⟩ (im.fed r o)
        (im.decodeInto rect o target stop).2.1 := by
  obtain ⟨hplan, hsize, hended⟩ := decodeInto_decoded h
  have hp := paintable_of_finished hended
  rw [(decodeInto_of_le hplan hsize).2.2, onto_of_paintable hp, written_of_finished hended]
  exact ⟨rfl, wrote_overwrite hp target⟩

end Image

/-- Dithering puts a level next to the exact value and keeps the sum over four by four pixels of one
colour, in any rows that are written and so in every bitmap that is decoded. Without dithering a
level is the nearest to the exact value. -/
theorem Coding.dithering_unbiased {k : Coding} (hk : k.format = .rgb565) (c : Colour) :
    (k.dither = true →
      (∀ row x y p, row[x]? = some p →
        let v := (c.sample p).toNat
        let level := c.levelAt (k.row y row) x
        (level = v * c.top / 255 ∨ level = v * c.top / 255 + 1) ∧
          (v = 0 → level = 0) ∧ (v = 255 → level = c.top)) ∧
      (∀ row row' x y p p', row[x]? = some p → row'[x]? = some p' → c.sample p ≤ c.sample p' →
        c.levelAt (k.row y row) x ≤ c.levelAt (k.row y row') x) ∧
      (∀ fed x y v, Flat fed c v x y →
        ∑ j ∈ range 4, ∑ i ∈ range 4, c.levelAt (k.row (y + j) (fed (y + j))) (x + i) =
          16 * (v.toNat * c.top) / 255) ∧
      ∀ fed b, k.Wrote fed b → ∀ x y v, y + 4 ≤ b.height → Flat fed c v x y →
        ∑ j ∈ range 4, ∑ i ∈ range 4, c.levelIn b (x + i) (y + j) =
          16 * (v.toNat * c.top) / 255) ∧
    (k.dither = false → ∀ row x y p, row[x]? = some p →
      let level := c.levelAt (k.row y row) x
      255 * level ≤ (c.sample p).toNat * c.top + 127 ∧
        (c.sample p).toNat * c.top ≤ 255 * level + 127) ∧
    ∀ (im : Image) rect o stop r, k = ⟨r.format, o.premultiplied, o.dither⟩ →
      (∀ b, (im.decode rect o stop).1.result = .ok (.decoded (b, r)) →
        b.height = r.height ∧ k.Wrote (im.fed r o) b) ∧
      ∀ target, (im.decodeInto rect o target stop).1.result = .ok (.decoded r) →
        (im.decodeInto rect o target stop).2.1.height = r.height ∧
          k.Wrote (im.fed r o) (im.decodeInto rect o target stop).2.1 := by
  refine ⟨fun hd => ⟨?beside, ?grows, fun _ _ _ _ => sum_levelAt hk hd,
    fun _ _ hw _ _ _ hy => sum_levelIn hk hd hw hy⟩, ?nearest, ?decoded⟩
  case beside =>
    intro row x y p hp
    have hb := Dither.bias_le k.dither x y
    simp only [levelAt_row hk c hp]
    refine ⟨quantize_bounds c _ hb, fun hv => ?_, fun hv => ?_⟩
    · rw [show c.sample p = 0 from UInt8.toNat_inj.mp hv, quantize_zero c hb]
    · rw [show c.sample p = 255 from UInt8.toNat_inj.mp hv, quantize_greatest c hb]
  case grows =>
    intro row row' x y p p' hp hp' hle
    rw [levelAt_row hk c hp, levelAt_row hk c hp']
    exact quantize_mono c.top hle _
  case nearest =>
    intro hd row x y p hp
    simp only [levelAt_row hk c hp, hd]
    exact quantize_nearest c.top _ x y
  case decoded =>
    rintro im rect o stop r rfl
    exact ⟨fun b h => Image.decode_wrote h, fun target h => Image.decodeInto_wrote h⟩

def ditheredRgb565 : Coding := ⟨.rgb565, true, true⟩

def ditheredPatch : Bitmap :=
  ⟨5, 5, .rgb565, true, 0,
    (Array.range 5).flatMap fun y => ditheredRgb565.row y (.replicate 5 (.gray 136))⟩

theorem Coding.dithering_unbiased_on_patch :
    ∑ j ∈ range 4, ∑ i ∈ range 4, Colour.green.levelIn ditheredPatch (1 + i) (1 + j) =
      537 := by
  have hk : ditheredRgb565.format = .rgb565 := rfl
  have hwrote : ditheredRgb565.Wrote (fun _ => .replicate 5 (.gray 136)) ditheredPatch := by
    unfold Coding.Wrote
    decide +kernel
  have hflat : Coding.Flat (fun _ => .replicate 5 (.gray 136)) .green 136 1 1 := by
    intro i hi j _
    exact ⟨.gray 136, by rw [Array.getElem?_replicate, if_pos (by omega)], rfl⟩
  obtain ⟨hdithered, _⟩ := Coding.dithering_unbiased hk .green
  exact (hdithered rfl).2.2.2 _ _ hwrote 1 1 136 (by decide) hflat

end ImageRegion
