import ImageRegion.Mosaic
import ImageRegion.Proofs.Packing

namespace ImageRegion.Mosaic

theorem div_lt_tilesAlong {tileSize extent x : Nat} (ht : 0 < tileSize) (hx : x < extent) :
    x / tileSize < tilesAlong tileSize extent := by
  rw [tilesAlong, Word.lt_ceilDiv_iff ht]
  exact Nat.lt_of_le_of_lt (Nat.div_mul_le_self x tileSize) hx

theorem mod_lt_extentOf {tileSize extent x : Nat} (ht : 0 < tileSize) (hx : x < extent) :
    x % tileSize < extentOf tileSize extent (x / tileSize) := by
  have hm := Nat.mod_lt x ht
  have hd := Nat.div_add_mod x tileSize
  rw [Nat.mul_comm] at hd
  simp only [extentOf]
  omega

theorem mul_add_extentOf_le {tileSize extent t : Nat} (ht : 0 < tileSize)
    (h : t < tilesAlong tileSize extent) :
    t * tileSize + extentOf tileSize extent t ≤ extent := by
  rw [tilesAlong, Word.lt_ceilDiv_iff ht] at h
  simp only [extentOf]
  omega

variable {width height tileSize : Nat} {pixels : Array Pixel}

theorem size_cut_row (ht : 0 < tileSize) (hp : pixels.size = width * height) {tx ty dy : Nat}
    (hx : tx < tilesAlong tileSize width) (hy : ty < tilesAlong tileSize height)
    (hdy : dy < extentOf tileSize height ty) :
    (pixels.extract ((ty * tileSize + dy) * width + tx * tileSize)
      ((ty * tileSize + dy) * width + tx * tileSize + extentOf tileSize width tx)).size =
      extentOf tileSize width tx := by
  have hw := mul_add_extentOf_le ht hx
  have hh := mul_add_extentOf_le ht hy
  have hrow : (ty * tileSize + dy) * width + width ≤ width * height :=
    Word.row_end_le width (by omega)
  rw [Array.size_extract]
  omega

theorem getElem?_tiles (native : PixelFormat) (ht : 0 < tileSize) {x y : Nat} (hx : x < width)
    (hy : y < height) :
    (ofPixels width height native tileSize pixels).tiles[y / tileSize *
      tilesAlong tileSize width + x / tileSize]? =
      some (cut width height tileSize pixels (x / tileSize) (y / tileSize)) := by
  have htx := div_lt_tilesAlong ht hx
  have hty := div_lt_tilesAlong ht hy
  unfold ofPixels
  rw [Packing.getElem?_flatMap (k := tilesAlong tileSize width) _ (by simpa using hty) htx]
  · simp [htx]
  · intro ty _
    simp

theorem getElem?_cut (ht : 0 < tileSize) (hp : pixels.size = width * height) {x y : Nat}
    (hx : x < width) (hy : y < height) :
    (cut width height tileSize pixels (x / tileSize) (y / tileSize))[y % tileSize *
      extentOf tileSize width (x / tileSize) + x % tileSize]? = pixels[y * width + x]? := by
  have htx := div_lt_tilesAlong ht hx
  have hty := div_lt_tilesAlong ht hy
  have hcol := mod_lt_extentOf ht hx
  have hdy := mod_lt_extentOf ht hy
  unfold cut
  rw [Packing.getElem?_flatMap (k := extentOf tileSize width (x / tileSize)) _
    (by simpa using hdy) hcol]
  · have hs := size_cut_row ht hp htx hty hdy
    rw [Array.size_extract] at hs
    have hy' : y / tileSize * tileSize + y % tileSize = y := by
      rw [Nat.mul_comm]
      exact Nat.div_add_mod y tileSize
    have hx' : x / tileSize * tileSize + x % tileSize = x := by
      rw [Nat.mul_comm]
      exact Nat.div_add_mod x tileSize
    simp only [Array.getElem_range]
    rw [hy'] at hs ⊢
    rw [Array.getElem?_extract, if_pos (by omega), Nat.add_assoc, hx']
  · intro dy hdy
    exact size_cut_row ht hp htx hty (Array.mem_range.mp hdy)

theorem pixelAt_ofPixels (native : PixelFormat) (ht : 0 < tileSize)
    (hp : pixels.size = width * height) {x y : Nat} (hx : x < width) (hy : y < height) :
    (ofPixels width height native tileSize pixels).pixelAt y x =
      pixels.getD (y * width + x) .clear := by
  simp only [pixelAt, Array.getD_eq_getD_getElem?]
  show ((ofPixels width height native tileSize pixels).tiles[y / tileSize *
      tilesAlong tileSize width + x / tileSize]?.getD #[])[y % tileSize *
      extentOf tileSize width (x / tileSize) + x % tileSize]?.getD .clear = _
  rw [getElem?_tiles native ht hx hy, Option.getD_some, getElem?_cut ht hp hx hy]

theorem size_tiles (native : PixelFormat) :
    (ofPixels width height native tileSize pixels).tiles.size =
      tilesAlong tileSize height * tilesAlong tileSize width := by
  unfold ofPixels
  rw [Packing.size_flatMap (k := tilesAlong tileSize width), Array.size_range]
  intro ty _
  simp

theorem size_cut (ht : 0 < tileSize) (hp : pixels.size = width * height) {tx ty : Nat}
    (hx : tx < tilesAlong tileSize width) (hy : ty < tilesAlong tileSize height) :
    (cut width height tileSize pixels tx ty).size =
      extentOf tileSize height ty * extentOf tileSize width tx := by
  unfold cut
  rw [Packing.size_flatMap (k := extentOf tileSize width tx), Array.size_range]
  intro dy hdy
  exact size_cut_row ht hp hx hy (Array.mem_range.mp hdy)

theorem forM_eq_ok {ε α : Type} {l : List α} {f : α → Except ε Unit}
    (h : ∀ a ∈ l, f a = .ok ()) : l.forM f = .ok () := by
  induction l with
  | nil => rfl
  | cons a l ih =>
    show (f a >>= fun _ => l.forM f) = .ok ()
    rw [h a (List.mem_cons_self ..)]
    exact ih fun a ha => h a (List.mem_cons_of_mem _ ha)

theorem checkCuts_eq_ok {width height tileSize : Nat} (ht : 0 < tileSize)
    (harea : width * height < 0x100000000) : checkCuts width height tileSize = .ok () := by
  have htiles : tilesAlong tileSize width * tilesAlong tileSize height ≤ width * height :=
    Nat.mul_le_mul (Word.ceilDiv_le ht) (Word.ceilDiv_le ht)
  unfold checkCuts
  rw [Word.product32_eq_ok_iff.mpr ⟨rfl, Nat.lt_of_le_of_lt htiles harea⟩]
  refine forM_eq_ok fun ty hty => forM_eq_ok fun tx htx => ?_
  have htx : tx * tileSize < width := (Word.lt_ceilDiv_iff ht).mp (List.mem_range.mp htx)
  have hextent : extentOf tileSize width tx * extentOf tileSize height ty ≤ width * height := by
    apply Nat.mul_le_mul
    · simp only [extentOf]
      omega
    · simp only [extentOf]
      omega
  rw [Word.product32_eq_ok_iff.mpr ⟨rfl, Nat.lt_of_le_of_lt hextent harea⟩]
  refine forM_eq_ok fun dy hdy => ?_
  have hrow : ty * tileSize + dy < height := by
    have hdy := List.mem_range.mp hdy
    simp only [extentOf] at hdy
    omega
  have hstart := Word.row_end_le width hrow
  rw [Word.product32_eq_ok_iff.mpr ⟨rfl, by omega⟩]
  show (Word.sum32 ((ty * tileSize + dy) * width) (tx * tileSize) >>= fun _ => .ok ()) = .ok ()
  rw [Word.sum32_eq_ok_iff.mpr ⟨rfl, by omega⟩]
  rfl

end ImageRegion.Mosaic
